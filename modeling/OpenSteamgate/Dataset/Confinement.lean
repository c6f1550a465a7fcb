import OpenSteamgate.Dataset.Sandbox

namespace OpenSteamgate.Dataset

open Disk (Inode Step Beneath here walk)

def Lies (d : Tree) (changes : List Change) (root i : Inode) : Prop :=
  Beneath d root i ∨ ∃ dir n,.create dir n i ∈ changes ∧ Beneath d root dir

def Touches (d : Tree) (changes : List Change) (root : Inode) : Change → Prop
  | .create dir _ _ => Beneath d root dir
  | .truncate i => Lies d changes root i
  | .unlink dir _ => Beneath d root dir

variable {limits : Limits} {cfg : Config} {d d₀ : Tree} {readFiles installs : List Granting}
  {sb : Sandbox} {p r : Path} {rs : List Path} {root i new : Inode} {changes : List Change}
  {mode : Mode} {rest : List (Step Name)} {e : Path × Inode}

def OpenedAt (limits : Limits) (cfg : Config) (d₀ : Tree) (installs : List Granting) (p : Path)
    (root : Inode) : Prop :=
  openRoot d₀ limits p = some root ∨ ∃ g ∈ installs,∃ pinned,pinRead limits cfg.cwd g = some pinned ∧
    pinned.path = p ∧ pinned.directory = some root

def RootPath (limits : Limits) (cfg : Config) (d₀ : Tree) (installs : List Granting) (mode : Mode)
    (p : Path) : Prop :=
  (∃ text ∈ if mode = .input then cfg.read ++ cfg.write else cfg.write,
    evalSymlinks d₀ limits (abs cfg.cwd text) = some p) ∨
  mode = .input ∧ ∃ g ∈ installs,∃ pinned,pinRead limits cfg.cwd g = some pinned ∧ pinned.path = p ∧
    pinned.directory ≠ none

def Root (limits : Limits) (cfg : Config) (d₀ : Tree) (installs : List Granting) (mode : Mode)
    (root : Inode) : Prop :=
  ∃ p,RootPath limits cfg d₀ installs mode p ∧ OpenedAt limits cfg d₀ installs p root

def Pins (limits : Limits) (cfg : Config) (g : Granting) (i : Inode) : Prop :=
  ∃ pinned,pinRead limits cfg.cwd g = some pinned ∧ pinned.directory = none ∧ pinned.grant.info = i

structure Provided (limits : Limits) (cfg : Config) (d₀ : Tree) (readFiles installs : List Granting)
    (sb : Sandbox) : Prop where
  read : ∀ p ∈ sb.read,RootPath limits cfg d₀ installs .input p
  write : ∀ p ∈ sb.write,∀ mode,mode ≠ .input → RootPath limits cfg d₀ installs mode p
  handles : ∀ e ∈ sb.handles,OpenedAt limits cfg d₀ installs e.1 e.2
  files : ∀ e ∈ sb.files,∃ g ∈ readFiles ++ installs,Pins limits cfg g e.2.info

theorem openHandles_mem {paths : List Path} {handles : List (Path × Inode)}
    (h : ∀ e ∈ handles,openRoot d limits e.1 = some e.2) :
    ∀ e ∈ openHandles d limits paths handles,openRoot d limits e.1 = some e.2 := by
  induction paths generalizing handles with
  | nil => exact h
  | cons p paths ih =>
    rw [openHandles]
    split
    · rename_i hopen
      refine ih fun e he => ?_
      rcases List.mem_append.mp he with he | he
      · exact h e he
      · rw [List.mem_singleton.mp he]
        exact hopen
    · exact ih h

theorem lookup_mem {α β : Type} [BEq α] [LawfulBEq α] {entries : List (α × β)} {a : α} {b : β}
    (h : entries.lookup a = some b) : (a,b) ∈ entries := by
  induction entries with
  | nil => exact nomatch h
  | cons e entries ih =>
    obtain ⟨c,x⟩ := e
    rw [List.lookup_cons] at h
    split at h
    · rename_i heq
      obtain rfl := Option.some.inj h
      exact beq_iff_eq.mp heq ▸ List.mem_cons_self
    · exact List.mem_cons_of_mem _ (ih h)

theorem closer_cases (sb : Sandbox) (p : Path) (best : Option Path) (r : Path) :
    sb.closer p best r = some r ∨ sb.closer p best r = best := by
  rw [Sandbox.closer]
  split
  · exact .inl rfl
  · exact .inr rfl

theorem foldl_closer_mem {best : Option Path} (h : rs.foldl (sb.closer p) best = some r) :
    r ∈ rs ∨ best = some r := by
  induction rs generalizing best with
  | nil => exact .inr h
  | cons x rs ih =>
    rcases ih h with hr | hr
    · exact .inl (List.mem_cons_of_mem x hr)
    · rcases closer_cases sb p best x with heq | heq
      · rw [heq] at hr
        exact .inl (Option.some.inj hr ▸ List.mem_cons_self)
      · exact .inr (heq.symm.trans hr)

theorem outermost_mem (h : sb.outermost p rs = some r) : r ∈ rs :=
  (foldl_closer_mem h).resolve_right nofun

theorem beneath_root (h : sb.beneath p rs = some (root,rest)) :
    ∃ r ∈ rs,(r,root) ∈ sb.handles := by
  rw [Sandbox.beneath] at h
  split at h
  · exact nomatch h
  · rename_i r hr
    obtain ⟨i,hi,heq⟩ := Option.map_eq_some_iff.mp h
    obtain ⟨rfl,-⟩ := Prod.mk.inj heq
    exact ⟨r,outermost_mem hr,lookup_mem hi⟩

theorem openExisting_ok {flags : Flags} {j : Inode} (h : openExisting d flags i = .ok j) : i = j := by
  rw [openExisting] at h
  split at h
  · split at h
    · exact nomatch h
    · exact Except.ok.inj h
  · exact Except.ok.inj h
  · exact nomatch h

theorem rootOpenFile_beneath {flags : Flags}
    (h : rootOpenFile d limits root rest flags new = .ok (i,changes)) :
    changes = [] ∧ Beneath d root i ∨
      flags.create = true ∧ ∃ dir n,changes = [.create dir n i] ∧ Beneath d root dir := by
  rw [rootOpenFile] at h
  split at h
  · rename_i stack hwalk
    cases hopen : openExisting d flags (here root stack) with
    | error error =>
      rw [hopen] at h
      exact nomatch h
    | ok j =>
      rw [hopen] at h
      obtain ⟨rfl,rfl⟩ := Prod.mk.inj (Except.ok.inj h)
      exact .inl ⟨rfl,openExisting_ok hopen ▸ (Disk.walk_ok hwalk).beneath⟩
  · rename_i stack n hwalk
    split at h
    · rename_i hcreate
      obtain ⟨rfl,rfl⟩ := Prod.mk.inj (Except.ok.inj h)
      exact .inr ⟨hcreate,_,n,rfl,(Disk.walk_missing hwalk).1.beneath⟩
    · exact nomatch h
  · exact nomatch h

theorem rootRemove_beneath (h : rootRemove d limits root rest = some changes) :
    ∃ dir n,changes = [.unlink dir n] ∧ Beneath d root dir := by
  rw [rootRemove] at h
  split at h
  · split at h
    · rename_i stack hwalk
      split at h
      · split at h
        · exact nomatch h
        all_goals exact ⟨_,_,(Option.some.inj h).symm,(Disk.walk_ok hwalk).beneath⟩
      · exact nomatch h
    · exact nomatch h
  · exact nomatch h
  · exact nomatch h

def Pinnable (limits : Limits) (cfg : Config) (readFiles installs : List Granting)
    (pinned : PinnedRead) : Prop :=
  (∃ g ∈ readFiles,pinRead limits cfg.cwd g = some pinned ∧ pinned.directory = none) ∨
    ∃ g ∈ installs,pinRead limits cfg.cwd g = some pinned

namespace Provided

theorem installRead {pinned : PinnedRead} (h : Provided limits cfg d₀ readFiles installs sb)
    (hpinned : Pinnable limits cfg readFiles installs pinned) :
    Provided limits cfg d₀ readFiles installs (sb.installRead pinned) := by
  rw [Sandbox.installRead]
  cases hdirectory : pinned.directory with
  | some directory =>
    obtain ⟨g,hg,hpin⟩ : ∃ g ∈ installs,pinRead limits cfg.cwd g = some pinned := by
      rcases hpinned with ⟨g,-,-,hnone⟩ | h
      · rw [hdirectory] at hnone
        exact nomatch hnone
      · exact h
    dsimp only
    split
    · exact h
    · refine ⟨fun p hp => ?_,h.write,fun e he => ?_,h.files⟩
      · rcases List.mem_append.mp hp with hp | hp
        · exact h.read p hp
        · rw [List.mem_singleton.mp hp]
          refine .inr ⟨rfl,g,hg,pinned,hpin,rfl,?_⟩
          rw [hdirectory]
          exact nofun
      · rcases List.mem_append.mp he with he | he
        · exact h.handles e he
        · rw [List.mem_singleton.mp he]
          exact .inr ⟨g,hg,pinned,hpin,rfl,hdirectory⟩
  | none =>
    dsimp only
    split
    · exact h
    · refine ⟨h.read,h.write,h.handles,fun e he => ?_⟩
      rcases List.mem_append.mp he with he | he
      · exact h.files e he
      · rw [List.mem_singleton.mp he]
        rcases hpinned with ⟨g,hg,hpin,-⟩ | ⟨g,hg,hpin⟩
        · exact ⟨g,List.mem_append_left _ hg,pinned,hpin,hdirectory,rfl⟩
        · exact ⟨g,List.mem_append_right _ hg,pinned,hpin,hdirectory,rfl⟩

theorem foldl {pins : List PinnedRead} (h : Provided limits cfg d₀ readFiles installs sb)
    (hpins : ∀ p ∈ pins,Pinnable limits cfg readFiles installs p) :
    Provided limits cfg d₀ readFiles installs (pins.foldl Sandbox.installRead sb) := by
  induction pins generalizing sb with
  | nil => exact h
  | cons pinned pins ih =>
    obtain ⟨hpinned,hpins⟩ := List.forall_mem_cons.mp hpins
    exact ih (h.installRead hpinned) hpins

theorem of_roots : Provided limits cfg d₀ readFiles installs (roots limits cfg d₀ readFiles) := by
  refine foldl ⟨fun p hp => ?_,fun p hp mode hmode => ?_,fun e he => ?_,List.forall_mem_nil _⟩ fun pinned hpinned => ?_
  · exact .inl (List.mem_filterMap.mp hp)
  · refine .inl ?_
    rw [if_neg hmode]
    exact List.mem_filterMap.mp hp
  · exact .inl (openHandles_mem (List.forall_mem_nil _) e he)
  · obtain ⟨hmem,hnone⟩ := List.mem_filter.mp hpinned
    obtain ⟨g,hg,hpin⟩ := List.mem_filterMap.mp hmem
    exact .inl ⟨g,hg,hpin,Option.isNone_iff_eq_none.mp hnone⟩

theorem installed :
    Provided limits cfg d₀ readFiles installs (installed limits cfg d₀ readFiles installs) := by
  refine foldl of_roots fun pinned hpinned => ?_
  obtain ⟨g,hg,hpin⟩ := List.mem_filterMap.mp hpinned
  exact .inr ⟨g,hg,hpin⟩

end Provided

structure Within (d : Tree) (mode : Mode) (root : Inode) (result : Outcome × List Change) : Prop where
  file : ∀ i,result.1 = .file i → Lies d result.2 root i
  changes : ∀ change ∈ result.2,mode ≠ .input ∧ Touches d result.2 root change

theorem handed_within (h : changes = [] ∧ Beneath d root i ∨
    (Sandbox.flags mode).create = true ∧ ∃ dir n,changes = [.create dir n i] ∧ Beneath d root dir) :
    Within d mode root (Sandbox.handed d mode i changes) := by
  have hlies : ∀ more,Lies d (changes ++ more) root i := fun more => by
    rcases h with ⟨-,hi⟩ | ⟨-,dir,n,rfl,hdir⟩
    · exact .inl hi
    · exact .inr ⟨dir,n,List.mem_append_left _ List.mem_cons_self,hdir⟩
  have htouches : ∀ more,∀ change ∈ changes,mode ≠ .input ∧
      Touches d (changes ++ more) root change := fun more change hchange => by
    rcases h with ⟨rfl,-⟩ | ⟨hcreate,dir,n,rfl,hdir⟩
    · exact nomatch hchange
    · rw [List.mem_singleton.mp hchange]
      refine ⟨fun hmode => ?_,hdir⟩
      rw [hmode] at hcreate
      exact nomatch hcreate
  have hresult : ∀ more,(∀ change ∈ more,mode ≠ .input ∧ change = .truncate i) → Within d mode root
      (if isDir (after d (changes ++ more)) i then .empty else .file i,changes ++ more) := by
    refine fun more hmore => ⟨fun j hj => ?_,fun change hchange => ?_⟩
    · change (if _ then Outcome.empty else .file i) = _ at hj
      split at hj
      · exact nomatch hj
      · exact Outcome.file.inj hj ▸ hlies more
    · rcases List.mem_append.mp hchange with hchange | hchange
      · exact htouches more change hchange
      · obtain ⟨hmode,rfl⟩ := hmore change hchange
        exact ⟨hmode,hlies more⟩
  rw [Sandbox.handed]
  by_cases hmode : mode = .output
  · rw [if_pos hmode]
    refine hresult _ (List.forall_mem_singleton.mpr ⟨?_,rfl⟩)
    rw [hmode]
    exact nofun
  · rw [if_neg hmode]
    have hnone := hresult [] (List.forall_mem_nil _)
    rw [List.append_nil] at hnone
    exact hnone

theorem openBeneath_within {m : Sandbox.Moments} {name : Text}
    (h : Provided limits cfg d₀ readFiles installs sb) :
    (sb.openBeneath limits m name mode new).2 = [] ∧
      (∀ i,(sb.openBeneath limits m name mode new).1 ≠ .file i) ∨
    ∃ root,Root limits cfg d₀ installs mode root ∧
      Within m.opened mode root (sb.openBeneath limits m name mode new) := by
  rw [Sandbox.openBeneath]
  split
  · exact .inl ⟨rfl,nofun⟩
  · exact .inl ⟨rfl,nofun⟩
  · split
    · exact .inl ⟨rfl,nofun⟩
    · rename_i root rel hbeneath
      obtain ⟨r,hr,hhandle⟩ := beneath_root hbeneath
      have hroot : Root limits cfg d₀ installs mode root := by
        refine ⟨r,?_,h.handles _ hhandle⟩
        by_cases hmode : mode = .input
        · rw [if_pos hmode] at hr
          exact hmode ▸ h.read r hr
        · rw [if_neg hmode] at hr
          exact h.write r hr mode hmode
      split
      · exact .inl ⟨rfl,nofun⟩
      · rename_i i changes hopen
        exact .inr ⟨root,hroot,handed_within (rootOpenFile_beneath hopen)⟩

theorem grantOf_mem {fold : Text → Text} {grant : Grant}
    (h : sb.grantOf limits fold d p = some grant) : ∃ q,(q,grant) ∈ sb.files := by
  rw [Sandbox.grantOf] at h
  split at h
  · rename_i found hfound
    obtain rfl := Option.some.inj h
    exact ⟨p,lookup_mem hfound⟩
  · obtain ⟨entry,hentry,rfl⟩ := Option.map_eq_some_iff.mp h
    exact ⟨entry.1,List.mem_of_find?_eq_some hentry⟩

theorem openFileGrant_pins {fold : Text → Text} {m : Sandbox.Moments} {name : Text}
    (h : Provided limits cfg d₀ readFiles installs sb)
    (hopen : sb.openFileGrant limits fold m name = some (.file i)) :
    isRegular m.pinned i = true ∧ ∃ g ∈ readFiles ++ installs,Pins limits cfg g i := by
  rw [Sandbox.openFileGrant] at hopen
  split at hopen
  · exact nomatch hopen
  · split at hopen
    · exact nomatch hopen
    · rename_i grant hgrant
      obtain ⟨q,hq⟩ := grantOf_mem hgrant
      split at hopen
      · split at hopen
        · rename_i hsame
          obtain rfl := Outcome.file.inj (Option.some.inj hopen)
          exact ⟨hsame.1,hsame.2 ▸ h.files _ hq⟩
        · exact nomatch hopen
      · exact nomatch hopen

theorem open_cases (sb : Sandbox) (limits : Limits) (fold : Text → Text) (m : Sandbox.Moments)
    (name : Text) (mode : Mode) (new : Inode) :
    sb.open limits fold m name mode new = sb.openBeneath limits m name mode new ∨
      mode = .input ∧ ∃ outcome,sb.openFileGrant limits fold m name = some outcome ∧
        sb.open limits fold m name mode new = (outcome,[]) := by
  cases mode with
  | input =>
    rw [Sandbox.open]
    split
    · rename_i i hgrant
      exact .inr ⟨rfl,_,hgrant,rfl⟩
    · rename_i outcome _ hgrant
      split
      · exact .inr ⟨rfl,outcome,hgrant,rfl⟩
      · exact .inl rfl
    · exact .inl rfl
  | output | appending | update => exact .inl rfl

theorem delete_beneath {m : Sandbox.Moments} {name : Text}
    (h : Provided limits cfg d₀ readFiles installs sb)
    (hdelete : sb.delete limits m name = some changes) : ∃ root dir n,
      Root limits cfg d₀ installs .output root ∧ changes = [.unlink dir n] ∧
        Beneath m.opened root dir := by
  rw [Sandbox.delete] at hdelete
  split at hdelete
  · exact nomatch hdelete
  · exact nomatch hdelete
  · split at hdelete
    · exact nomatch hdelete
    · rename_i root rel hbeneath
      obtain ⟨r,hr,hhandle⟩ := beneath_root hbeneath
      obtain ⟨dir,n,hchanges,hdir⟩ := rootRemove_beneath hdelete
      exact ⟨root,dir,n,⟨r,h.write r hr .output nofun,h.handles _ hhandle⟩,hchanges,hdir⟩

theorem confined (limits : Limits) (cfg : Config) (d₀ : Tree) (readFiles installs : List Granting)
    (fold : Text → Text) (m : Sandbox.Moments) (name : Text) (mode : Mode) (new : Inode) :
    let sb := installed limits cfg d₀ readFiles installs
    let result := sb.open limits fold m name mode new
    (∀ i,result.1 = .file i →
      (∃ root,Root limits cfg d₀ installs mode root ∧ Lies m.opened result.2 root i) ∨
        mode = .input ∧ isRegular m.pinned i = true ∧ ∃ g ∈ readFiles ++ installs,Pins limits cfg g i) ∧
    (∀ change ∈ result.2,mode ≠ .input ∧ ∃ root,Root limits cfg d₀ installs mode root ∧
      Touches m.opened result.2 root change) ∧
    ∀ changes,sb.delete limits m name = some changes → ∃ root dir n,
      Root limits cfg d₀ installs .output root ∧ changes = [.unlink dir n] ∧
        Beneath m.opened root dir := by
  intro sb result
  have hprovided : Provided limits cfg d₀ readFiles installs sb := .installed
  refine ⟨fun i hi => ?_,fun change hchange => ?_,fun changes hdelete => ?_⟩
  · rcases open_cases sb limits fold m name mode new with hopen | ⟨hmode,outcome,hgrant,hopen⟩
    · change (sb.open limits fold m name mode new).1 = .file i at hi
      change (∃ root,_ ∧ Lies m.opened (sb.open limits fold m name mode new).2 root i) ∨ _
      rw [hopen] at hi ⊢
      rcases openBeneath_within hprovided with ⟨-,hnone⟩ | ⟨root,hroot,hwithin⟩
      · exact absurd hi (hnone i)
      · exact .inl ⟨root,hroot,hwithin.file i hi⟩
    · change (sb.open limits fold m name mode new).1 = .file i at hi
      rw [hopen] at hi
      obtain rfl : outcome = .file i := hi
      exact .inr ⟨hmode,openFileGrant_pins hprovided hgrant⟩
  · change change ∈ (sb.open limits fold m name mode new).2 at hchange
    change _ ∧ ∃ root,_ ∧ Touches m.opened (sb.open limits fold m name mode new).2 root change
    rcases open_cases sb limits fold m name mode new with hopen | ⟨hmode,outcome,hgrant,hopen⟩
    · rw [hopen] at hchange ⊢
      rcases openBeneath_within hprovided with ⟨hnone,-⟩ | ⟨root,hroot,hwithin⟩
      · rw [hnone] at hchange
        exact nomatch hchange
      · obtain ⟨hmode,htouches⟩ := hwithin.changes change hchange
        exact ⟨hmode,root,hroot,htouches⟩
    · rw [hopen] at hchange
      exact nomatch hchange
  · exact delete_beneath hprovided hdelete

end OpenSteamgate.Dataset
