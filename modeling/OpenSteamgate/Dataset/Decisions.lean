import OpenSteamgate.Dataset.Agreement

namespace OpenSteamgate.Dataset

open Disk (Inode Step Stack Descends here names path walk)

variable {d₀ d : Tree} {limits : Limits} {cfg : Config} {s t u more : Stack Name}
  {p q r real named wanted : Path} {n : Name} {i j new : Inode} {rs : List Path} {name : Text}
  {mode : Mode} {sb : Sandbox} {flags : Flags} {error : OpenError} {changes : List Change}

def Refusal.Alike : Refusal → Refusal → Prop
  | .failed _,.failed _ => True
  | why,why' => why = why'

def Outcome.Alike : Outcome → Outcome → Prop
  | .refused why,.refused why' => why.Alike why'
  | outcome,outcome' => outcome = outcome'

def Alike (result result' : Outcome × List Change) : Prop :=
  result.1.Alike result'.1 ∧ result.2 = result'.2

theorem Outcome.alike_refl (outcome : Outcome) : outcome.Alike outcome := by
  cases outcome with
  | refused why =>
    cases why with
    | failed error => exact trivial
    | noRoot | nul | outside | dangling | missing | symlink | changed => exact rfl
  | file i | empty => exact rfl

theorem alike_of_eq {result result' : Outcome × List Change} (h : result = result') :
    Alike result result' := h ▸ ⟨Outcome.alike_refl _,rfl⟩

def FileRoot (d : Tree) (limits : Limits) (rs : List Path) (p : Path) : Prop :=
  p ∈ rs ∧ (∃ i ∈ stat d limits p,isDir d i = false) ∧ ∀ r ∈ rs,r <+: p → r = p

def ThroughFile (d : Tree) (limits : Limits) (rs : List Path) (dir : Path) : Prop :=
  (∃ i ∈ stat d limits dir,isDir d i = false) ∧ ∃ r ∈ rs,r <+: dir ∧ r ≠ dir

section entries

theorem isDir_of_entry (h : d.entry i n = some j) : isDir d i = true := by
  obtain ⟨entries,hdir⟩ := Disk.entry_some h
  rw [isDir,hdir]

theorem isDir_above (h : Descends d i more) (hmore : more ≠ []) : isDir d i = true := by
  induction more with
  | nil => exact absurd rfl hmore
  | cons e more ih =>
    obtain ⟨n,j⟩ := e
    cases more with
    | nil => exact isDir_of_entry h.1
    | cons f more => exact ih h.2.2 (List.cons_ne_nil f more)

theorem openRoot_path (h : Descends d d.top s) : openRoot d limits (path s) =
    if isDir d (here d.top s) then some (here d.top s) else none := by
  rw [openRoot,stat_path h]
  rfl

theorem lstat_path (h : Descends d d.top s) : lstat d limits (path s) = some (here d.top s) := by
  cases s with
  | nil => rfl
  | cons e s =>
    obtain ⟨n,i⟩ := e
    rw [Disk.path_cons,lstat_snoc,stat_path h.2.2]
    exact h.1

theorem entryPath_path (h : Descends d d.top s) : entryPath d limits (path s) = some (path s) := by
  cases s with
  | nil =>
    have htop : evalSymlinks d limits [] = some [] := evalSymlinks_path (s := []) trivial
    change (evalSymlinks d limits []).map _ = _
    rw [htop]
    rfl
  | cons e s =>
    rw [Disk.path_cons,entryPath_snoc,evalSymlinks_path h.2.2]
    rfl

end entries

section descent

theorem walkDown_append (d : Tree) (i : Inode) (p q : Path) : Host.walkDown d i (p ++ q) =
    (Host.walkDown d i p).bind fun j => Host.walkDown d j q := by
  induction p generalizing i with
  | nil => rfl
  | cons n p ih =>
    rw [List.cons_append,Host.walkDown,Host.walkDown]
    cases Host.openDirectory d (d.entry i n) with
    | error error => rfl
    | ok j => exact ih j

theorem walkDown_path (h : Descends d i more) (hdir : isDir d i = true) :
    Host.walkDown d i (path more) = Host.openDirectory d (some (here i more)) := by
  induction more with
  | nil => exact (if_pos hdir).symm
  | cons e more ih =>
    obtain ⟨n,j⟩ := e
    have habove : Host.openDirectory d (some (here i more)) = .ok (here i more) :=
      if_pos (isDir_of_entry h.1)
    rw [Disk.path_cons,walkDown_append,ih h.2.2,habove]
    change (do
      let next ← Host.openDirectory d (d.entry (here i more) n)
      Host.walkDown d next []) = _
    rw [h.1]
    exact bind_pure _

theorem parentBeneath_path (ht : Descends d d.top (more ++ u))
    (hout : Outermost (path (more ++ u) ++ [n]) rs (path u)) :
    Host.parentBeneath limits d (path (more ++ u) ++ [n]) rs =
      if isDir d (here d.top (more ++ u)) then
        .found (here d.top (more ++ u)) n (path (more ++ u) ++ [n])
      else .moved .notDir := by
  obtain ⟨hmore,hu⟩ := Disk.descends_append.mp ht
  have hne : path (more ++ u) ++ [n] ≠ path u := by
    intro h
    have hlen := congrArg List.length h
    rw [Disk.path_append,List.length_append,List.length_append,List.length_singleton] at hlen
    omega
  have hparts : (path (more ++ u) ++ [n]).drop (path u).length = path more ++ [n] := by
    rw [Disk.path_append,List.append_assoc,List.drop_left]
  rw [Host.parentBeneath,host_outermost hout]
  change (if _ then _ else _) = _
  rw [if_neg hne,lstat_path hu,hparts]
  by_cases hdir : isDir d (here d.top u) = true
  · have hroot : Host.openDirectory d (some (here d.top u)) = .ok (here d.top u) := if_pos hdir
    rw [hroot]
    change (if _ then _ else _) = _
    rw [if_neg (not_not_intro (entryPath_path hu))]
    dsimp only
    rw [List.getLast?_concat,List.dropLast_concat,walkDown_path hmore hdir,Host.openDirectory,
      ← Disk.here_append,Disk.path_append,List.append_assoc]
    by_cases hlast : isDir d (here d.top (more ++ u)) = true
    · rw [if_pos hlast,if_pos hlast]
    · rw [if_neg hlast,if_neg hlast]
  · have hroot : Host.openDirectory d (some (here d.top u)) = .error .notDir := if_neg hdir
    have hempty : more = [] := by
      by_contra hmore'
      exact hdir (isDir_above hmore hmore')
    subst hempty
    rw [hroot]
    exact (if_neg hdir).symm

theorem rel_below (p q : Path) : rel p (p ++ q) = names q := by
  induction p with
  | nil =>
    cases q with
    | nil => rfl
    | cons n q => rfl
  | cons n p ih => exact (if_pos rfl).trans ih

theorem rootOpenFile_below (h : Descends d i more)
    (hlink : ∀ j,d.entry (here i more) n = some j → ∀ target,d.node j ≠ .link target) :
    rootOpenFile d limits i (names (path more ++ [n])) flags new =
      Host.openIn d (here i more) n flags new := by
  have hnames := @Disk.advance_names _ _ d true i [] more (by rwa [List.append_nil])
  rw [List.append_nil] at hnames
  have hadvance : Disk.advance d true i [] (names (path more ++ [n])) =
      Disk.advance d true i more [.name n] := by
    rw [Disk.names_append,Disk.advance_append,hnames]
    rfl
  cases hentry : d.entry (here i more) n with
  | some j =>
    obtain ⟨entries,hdir⟩ := Disk.entry_some hentry
    rw [rootOpenFile,Disk.walk_arrived (hadvance.trans (Disk.advance_name hentry (hlink j hentry)))]
    simp only [Host.openIn,hdir,hentry]
    rfl
  | none =>
    cases hnode : d.node (here i more) with
    | dir entries =>
      have hlookup := (Disk.entry_of_dir hnode n).symm.trans hentry
      have hhalt : Disk.advance d true i more [.name n] = .halted (.missing more n []) := by
        simp only [Disk.advance,hnode,hlookup]
      rw [rootOpenFile,Disk.walk_halted (hadvance.trans hhalt)]
      simp only [Host.openIn,hnode,hentry]
    | file content =>
      have hhalt : Disk.advance d true i more [.name n] = .halted .notDir := by
        simp only [Disk.advance,hnode]
      rw [rootOpenFile,Disk.walk_halted (hadvance.trans hhalt)]
      simp only [Host.openIn,hnode]
      rfl
    | link target =>
      have hhalt : Disk.advance d true i more [.name n] = .halted .notDir := by
        simp only [Disk.advance,hnode]
      rw [rootOpenFile,Disk.walk_halted (hadvance.trans hhalt)]
      simp only [Host.openIn,hnode]
      rfl

end descent

namespace Sandbox

def rootsFor (sb : Sandbox) (mode : Mode) : List Path := if mode = .input then sb.read else sb.write

def givenFor (sb : Sandbox) (mode : Mode) : List Text :=
  if mode = .input then sb.givenRead ++ sb.givenWrite else sb.givenWrite

def reach (sb : Sandbox) (limits : Limits) (d : Tree) (mode : Mode) (new : Inode) (rs : List Path) :
    Place → Outcome × List Change
  | .refused why => (.refused why,[])
  | .missing => (.refused .missing,[])
  | .found real _ =>
    match sb.beneath real rs with
    | none => (.refused .outside,[])
    | some (root,rel) =>
      match rootOpenFile d limits root rel (Sandbox.flags mode) new with
      | .error error => (.refused (refusal error),[])
      | .ok (i,changes) => handed d mode i changes

end Sandbox

namespace Host

def reach (limits : Limits) (d : Tree) (mode : Mode) (new : Inode) (rs : List Path) :
    Place → Outcome × List Change
  | .refused why => (.refused why,[])
  | .missing => (.refused .missing,[])
  | .found real _ =>
    match parentBeneath limits d real rs with
    | .moved error => (.refused (moved error),[])
    | .found dir base landed =>
      match openIn d dir base (Sandbox.flags mode) new with
      | .error error => (.refused (message error),[])
      | .ok (i,changes) => finish d mode rs (some landed) i changes
    | .undefined =>
      match openPath limits d real (Sandbox.flags mode) new with
      | .error error => (.refused (message error),[])
      | .ok (i,changes) => finish d mode rs (entryPath d limits real) i changes

end Host

theorem openFileGrant_none (fold : Text → Text) (m : Sandbox.Moments) (name : Text) :
    (roots limits cfg d₀ []).openFileGrant limits fold m name = none := by
  rw [Sandbox.openFileGrant]
  cases evalSymlinks m.found limits ((roots limits cfg d₀ []).datasetName name) with
  | none => rfl
  | some real => rfl

theorem sandbox_open (fold : Text → Text) (mode : Mode) :
    (roots limits cfg d₀ []).open limits fold ⟨d,d,d,d⟩ name mode new =
      (roots limits cfg d₀ []).reach limits d mode new ((roots limits cfg d₀ []).rootsFor mode)
        ((roots limits cfg d₀ []).place limits d name ((roots limits cfg d₀ []).rootsFor mode)
          ((roots limits cfg d₀ []).givenFor mode)) := by
  cases mode with
  | input =>
    rw [Sandbox.open,openFileGrant_none]
    rfl
  | output | appending | update => rfl

theorem host_open {name : List Nat} (mode : Mode) (h : SameName (roots limits cfg d₀ []) name
      ((roots limits cfg d₀ []).rootsFor mode) ((roots limits cfg d₀ []).givenFor mode)) :
    Host.open limits cfg (Host.load limits cfg d₀) d name mode new =
      Host.reach limits d mode new ((roots limits cfg d₀ []).rootsFor mode)
        ((roots limits cfg d₀ []).place limits d (goText name) ((roots limits cfg d₀ []).rootsFor mode)
          ((roots limits cfg d₀ []).givenFor mode)) := by
  rw [← place_eq h]
  cases mode with
  | input =>
    change _ = Host.reach limits d .input new (roots limits cfg d₀ []).read (Host.place limits cfg
      (Host.load limits cfg d₀) d name (roots limits cfg d₀ []).read (cfg.read ++ cfg.write))
    rw [← load_read]
    rfl
  | output | appending | update =>
    change _ = Host.reach limits d _ new (roots limits cfg d₀ []).write (Host.place limits cfg
      (Host.load limits cfg d₀) d name (roots limits cfg d₀ []).write cfg.write)
    rw [← load_write]
    rfl

section answers

theorem openExisting_error (h : openExisting d flags i = .error error) : error ≠ .escapes := by
  rw [openExisting] at h
  split at h
  · split at h
    · obtain rfl := Except.error.inj h
      rintro ⟨⟩
    · cases h
  · cases h
  · obtain rfl := Except.error.inj h
    rintro ⟨⟩

def opening (d : Tree) (flags : Flags) (i : Inode) : Except OpenError (Inode × List Change) :=
  (openExisting d flags i).map fun i => (i,[])

theorem opening_error (h : opening d flags i = .error error) : error ≠ .escapes := by
  rw [opening] at h
  cases hopen : openExisting d flags i with
  | error error =>
    rw [hopen] at h
    obtain rfl := Except.error.inj h
    exact openExisting_error hopen
  | ok j =>
    rw [hopen] at h
    exact nomatch h

theorem openIn_error (h : Host.openIn d i n flags new = .error error) : error ≠ .escapes := by
  rw [Host.openIn] at h
  split at h
  · split at h
    · exact opening_error h
    · split at h
      · exact nomatch h
      · obtain rfl := Except.error.inj h
        exact nofun
  · obtain rfl := Except.error.inj h
    exact nofun
  · obtain rfl := Except.error.inj h
    exact nofun

theorem openIn_file (h : ¬isDir d i = true) : Host.openIn d i n flags new = .error .notDir := by
  rw [isDir] at h
  rw [Host.openIn]
  cases hnode : d.node i with
  | dir entries =>
    rw [hnode] at h
    exact absurd rfl h
  | file content => rfl
  | link target => rfl

theorem refusal_alike (h : error ≠ .escapes) :
    (Sandbox.refusal error).Alike (Host.message error) := by
  cases error with
  | notExist => exact rfl
  | isDir => exact trivial
  | notDir => exact trivial
  | loop => exact rfl
  | escapes => exact absurd rfl h

theorem finish_handed (h : ∃ r ∈ rs,r <+: real) :
    Host.finish d mode rs (some real) i changes = Sandbox.handed d mode i changes := by
  have hwithin : Host.within real rs = true := host_within_iff.trans (within_iff.mpr h)
  rw [Host.finish,Option.map_some,hwithin]
  rfl

theorem handed_outcome (d : Tree) (mode : Mode) (i : Inode) (changes : List Change) :
    (Sandbox.handed d mode i changes).1 = .empty ∨ (Sandbox.handed d mode i changes).1 = .file i := by
  by_cases h : isDir (after d (if mode = .output then changes ++ [.truncate i] else changes)) i = true
  · exact .inl (if_pos h)
  · exact .inr (if_neg h)

theorem answers_alike {o : Except OpenError (Inode × List Change)} (h : ∃ r ∈ rs,r <+: real) :
    (∀ error,o = .error error → error ≠ .escapes) → Alike
      (match o with
        | .error error => (.refused (Sandbox.refusal error),[])
        | .ok (i,changes) => Sandbox.handed d mode i changes)
      (match o with
        | .error error => (.refused (Host.message error),[])
        | .ok (i,changes) => Host.finish d mode rs (some real) i changes) := by
  intro ho
  cases o with
  | error error => exact ⟨refusal_alike (ho error rfl),rfl⟩
  | ok opened =>
    obtain ⟨i,changes⟩ := opened
    exact alike_of_eq (finish_handed h).symm

theorem opening_allowed (hdir : ¬isDir d i = true) (h : ∃ r ∈ rs,r <+: real) :
    ¬Alike (.refused .outside,[])
      (match opening d flags i with
        | .error error => (.refused (Host.message error),[])
        | .ok (i,changes) => Host.finish d mode rs (some real) i changes) := by
  rw [isDir] at hdir
  rw [opening,openExisting]
  cases hnode : d.node i with
  | dir entries =>
    rw [hnode] at hdir
    exact absurd rfl hdir
  | link target =>
    intro halike
    have hwhy : Refusal.outside = .symlink := halike.1
    cases hwhy
  | file content =>
    change ¬Alike _ (Host.finish d mode rs (some real) i [])
    rw [finish_handed h]
    intro halike
    have hopened := halike.1
    rcases handed_outcome d mode i [] with h | h
    · rw [h] at hopened
      have hempty : Outcome.refused .outside = .empty := hopened
      cases hempty
    · rw [h] at hopened
      have hfile : Outcome.refused .outside = .file i := hopened
      cases hfile

end answers

-- of the roots that hold a path only the outermost one is asked
def Held (sb : Sandbox) (limits : Limits) (d : Tree) (rs : List Path) (p : Path) : Prop :=
  ∀ r,Outermost p rs r → (∃ u,Descends d d.top u ∧ path u = r) ∧
    sb.handles.lookup r = openRoot d limits r ∧
      (sb.handles.lookup r = none → ∀ q ∈ rs,r <+: q → sb.handles.lookup q = none)

section held

theorem beneath_open (hkept : Held sb limits d rs (path u ++ p)) (hu : Descends d d.top u)
    (hdir : isDir d (here d.top u) = true) (hout : Outermost (path u ++ p) rs (path u)) :
    sb.beneath (path u ++ p) rs = some (here d.top u,names p) := by
  obtain ⟨-,hlookup,-⟩ := hkept _ hout
  rw [openRoot_path hu,if_pos hdir] at hlookup
  have hheld : sb.handles.lookup (path u) ≠ none := by
    rw [hlookup]
    exact nofun
  rw [Sandbox.beneath,sandbox_outermost hout hheld]
  change (sb.handles.lookup (path u)).map _ = _
  rw [hlookup,rel_below]
  rfl

theorem beneath_none (h : ∀ r ∈ rs,¬r <+: p) : sb.beneath p rs = none := by
  rw [Sandbox.beneath,sandbox_outermost_none fun r hr husable => h r hr husable.1]

theorem beneath_closed (hkept : Held sb limits d rs p) (hu : Descends d d.top u)
    (hfile : ¬isDir d (here d.top u) = true) (hout : Outermost p rs (path u)) :
    sb.beneath p rs = none := by
  obtain ⟨-,hlookup,hbelow⟩ := hkept _ hout
  rw [openRoot_path hu,if_neg hfile] at hlookup
  have hclosed : ∀ q ∈ rs,¬Usable sb p q := fun q hq husable =>
    husable.2 (hbelow hlookup q hq (hout.least q hq husable.1))
  rw [Sandbox.beneath,sandbox_outermost_none hclosed]

end held

theorem openPath_path (hu : Descends d d.top u) :
    Host.openPath limits d (path u) flags new = opening d flags (here d.top u) := by
  cases u with
  | nil => rfl
  | cons e t =>
    obtain ⟨n,i⟩ := e
    obtain ⟨entries,hdir⟩ := Disk.entry_some hu.1
    have hdirname : dirname (path t ++ [n]) = path t := List.dropLast_concat
    rw [Host.openPath,Disk.path_cons,List.getLast?_concat,hdirname,stat_path hu.2.2]
    change Host.openIn d (here d.top t) n flags new = _
    rw [Host.openIn,hdir]
    dsimp only
    rw [hu.1]
    rfl

theorem parentBeneath_root (hout : Outermost p rs p) :
    Host.parentBeneath limits d p rs = .undefined := by
  rw [Host.parentBeneath,host_outermost hout]
  exact if_pos rfl

section held

theorem reach_root (hkept : Held sb limits d rs (path u)) (hu : Descends d d.top u)
    (hout : Outermost (path u) rs (path u)) :
    Alike (sb.reach limits d mode new rs (.found (path u) named))
      (Host.reach limits d mode new rs (.found (path u) named)) ↔
        isDir d (here d.top u) = true := by
  rw [Sandbox.reach,Host.reach,parentBeneath_root hout]
  dsimp only
  rw [openPath_path hu,entryPath_path hu]
  by_cases hdir : isDir d (here d.top u) = true
  · refine iff_of_true ?_ hdir
    have hbeneath := beneath_open (p := []) (by rwa [List.append_nil]) hu hdir (by rwa [List.append_nil])
    rw [List.append_nil] at hbeneath
    rw [hbeneath]
    have hempty : rootOpenFile d limits (here d.top u) (names []) (Sandbox.flags mode) new =
        opening d (Sandbox.flags mode) (here d.top u) := by
      rw [rootOpenFile,Disk.walk_arrived rfl]
      rfl
    dsimp only
    rw [hempty]
    exact answers_alike ⟨path u,hout.mem,List.prefix_rfl⟩ fun _ h => opening_error h
  · refine iff_of_false ?_ hdir
    rw [beneath_closed hkept hu hdir hout]
    exact opening_allowed hdir ⟨path u,hout.mem,List.prefix_rfl⟩

theorem reach_below (hkept : Held sb limits d rs (path (more ++ u) ++ [n]))
    (ht : Descends d d.top (more ++ u))
    (hlink : ∀ i,d.entry (here d.top (more ++ u)) n = some i → ∀ target,d.node i ≠ .link target)
    (hout : Outermost (path (more ++ u) ++ [n]) rs (path u)) :
    Alike (sb.reach limits d mode new rs (.found (path (more ++ u) ++ [n]) named))
      (Host.reach limits d mode new rs (.found (path (more ++ u) ++ [n]) named)) ↔
        (isDir d (here d.top (more ++ u)) = true ∨ more = []) := by
  obtain ⟨hmore,hu⟩ := Disk.descends_append.mp ht
  rw [Sandbox.reach,Host.reach,parentBeneath_path ht hout]
  by_cases hdir : isDir d (here d.top u) = true
  · have hsplit : path (more ++ u) ++ [n] = path u ++ (path more ++ [n]) := by
      rw [Disk.path_append,List.append_assoc]
    have hbeneath := beneath_open (hsplit ▸ hkept) hu hdir (hsplit ▸ hout)
    have hopenIn := @rootOpenFile_below d limits more n (here d.top u) new (Sandbox.flags mode) hmore
      (by rwa [← Disk.here_append])
    rw [hsplit,hbeneath]
    dsimp only
    rw [hopenIn,← Disk.here_append]
    by_cases hlast : isDir d (here d.top (more ++ u)) = true
    · refine iff_of_true ?_ (.inl hlast)
      rw [if_pos hlast]
      exact answers_alike ⟨path u,hout.mem,hsplit ▸ hout.holds⟩ fun _ h => openIn_error h
    · have hne : more ≠ [] := by
        rintro rfl
        exact hlast hdir
      refine iff_of_false ?_ (not_or.mpr ⟨hlast,hne⟩)
      rw [if_neg hlast,openIn_file hlast]
      intro halike
      have hwhy : Refusal.failed .notDir = .outside := halike.1
      exact nomatch hwhy
  · have hempty : more = [] := by
      by_contra hmore'
      exact hdir (isDir_above hmore hmore')
    subst hempty
    refine iff_of_true ?_ (.inr rfl)
    rw [beneath_closed hkept hu hdir hout,List.nil_append,if_neg hdir]
    exact ⟨rfl,rfl⟩

end held

theorem not_fileRoot (hout : Outermost p rs r) (hne : r ≠ p) : ¬FileRoot d limits rs p :=
  fun h => hne (h.2.2 r hout.mem hout.holds)

theorem not_through (hu : Descends d d.top u) : ¬ThroughFile d limits rs (dirname (path u)) := by
  rintro ⟨⟨i,hi,hfile⟩,r,-,hr,hne⟩
  cases u with
  | nil => exact hne (List.prefix_nil.mp hr)
  | cons e t =>
    obtain ⟨n,j⟩ := e
    have hdirname : dirname (path t ++ [n]) = path t := List.dropLast_concat
    rw [Disk.path_cons,hdirname,stat_path hu.2.2] at hi
    obtain rfl := Option.some.inj hi
    rw [isDir_of_entry hu.1] at hfile
    exact nomatch hfile

theorem fileRoot_iff (hu : Descends d d.top u) (hout : Outermost (path u) rs (path u)) :
    FileRoot d limits rs (path u) ↔ ¬isDir d (here d.top u) = true := by
  rw [FileRoot,stat_path hu]
  constructor
  · rintro ⟨-,⟨i,hi,hfile⟩,-⟩
    obtain rfl := Option.some.inj hi
    rwa [Bool.not_eq_true]
  · intro hfile
    refine ⟨hout.mem,⟨_,rfl,by rwa [← Bool.not_eq_true]⟩,fun r hr hholds => ?_⟩
    exact hholds.eq_of_length_le (hout.least r hr hholds).length_le

theorem through_iff (ht : Descends d d.top (more ++ u)) (hout : Outermost (path (more ++ u) ++ [n]) rs (path u)) :
    ThroughFile d limits rs (path (more ++ u)) ↔
      ¬(isDir d (here d.top (more ++ u)) = true ∨ more = []) := by
  rw [ThroughFile,stat_path ht,not_or]
  constructor
  · rintro ⟨⟨i,hi,hfile⟩,r,hr,hholds,hne⟩
    obtain rfl := Option.some.inj hi
    refine ⟨by rwa [Bool.not_eq_true],?_⟩
    rintro rfl
    have hle := (hout.least r hr (hholds.trans (List.prefix_append _ _))).length_le
    exact hne (hholds.eq_of_length_le hle)
  · rintro ⟨hfile,hmore⟩
    have hbelow : path u <+: path (more ++ u) := by
      rw [Disk.path_append]
      exact List.prefix_append _ _
    refine ⟨⟨_,rfl,by rwa [← Bool.not_eq_true]⟩,path u,hout.mem,hbelow,fun h => ?_⟩
    have hlen := congrArg List.length h
    rw [Disk.path_append,List.length_append] at hlen
    have hzero : (path more).length = more.length := by
      rw [path,List.length_reverse,List.length_map]
    have hpos := List.length_pos_iff.mpr hmore
    omega

inductive Stands (d : Tree) (real : Path) : Prop
  | top : real = [] → Stands d real
  | below (t : Stack Name) (n : Name) : Descends d d.top t → real = path t ++ [n] →
      (∀ i,d.entry (here d.top t) n = some i → ∀ target,d.node i ≠ .link target) → Stands d real

theorem Found.stands (h : Found d limits wanted real named) : Stands d real := by
  cases h with
  | top hwanted hreal hnamed => exact .top hreal
  | there s t n i hreal hdir hbase hs hpath ht hnamed hi hlink =>
    subst hpath
    cases s with
    | nil => exact .top rfl
    | cons e s =>
      obtain ⟨m,j⟩ := e
      refine .below s m hs.2.2 (Disk.path_cons _ _) fun i hi => ?_
      obtain rfl := Option.some.inj (hs.1.symm.trans hi)
      exact hs.2.1
  | fresh t n hnone hdir hbase ht hreal hnamed hentry =>
    refine .below t n ht hreal fun i hi => ?_
    rw [hentry] at hi
    exact nomatch hi

theorem reach_alike (hkept : Held sb limits d rs real) (h : Stands d real)
    (hheld : ∃ r ∈ rs,r <+: real) :
    Alike (sb.reach limits d mode new rs (.found real named))
      (Host.reach limits d mode new rs (.found real named)) ↔
        ¬FileRoot d limits rs real ∧ ¬ThroughFile d limits rs (dirname real) := by
  obtain ⟨r,hout⟩ := exists_outermost hheld
  obtain ⟨u,hu,rfl⟩ := (hkept r hout).1
  by_cases heq : path u = real
  · subst heq
    rw [reach_root hkept hu hout,fileRoot_iff hu hout,not_not]
    exact (and_iff_left (not_through hu)).symm
  · cases h with
    | top hreal =>
      subst hreal
      exact absurd (List.prefix_nil.mp hout.holds) heq
    | below t n ht hreal hlink =>
      subst hreal
      have habove : path u <+: path t := (List.prefix_concat_iff.mp hout.holds).resolve_left heq
      obtain ⟨more,rfl⟩ := Disk.descends_prefix ht hu habove
      have hdirname : dirname (path (more ++ u) ++ [n]) = path (more ++ u) := List.dropLast_concat
      rw [reach_below hkept ht hlink hout,hdirname,through_iff ht hout,not_not]
      exact (and_iff_right (not_fileRoot hout heq)).symm

end OpenSteamgate.Dataset
