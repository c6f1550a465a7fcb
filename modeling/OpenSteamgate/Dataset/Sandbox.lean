import OpenSteamgate.Dataset.Paths

namespace OpenSteamgate.Dataset

open Disk (Inode Step Halt Stack here names walk)

abbrev Tree := Disk Name

structure Limits where
  links : Nat
  rooted : Nat

def find (d : Tree) (limits : Limits) (p : Path) : Option (Stack Name) :=
  (walk d false d.top limits.links [] (names p)).toOption

def evalSymlinks (d : Tree) (limits : Limits) (p : Path) : Option Path :=
  (find d limits p).map Disk.path

def stat (d : Tree) (limits : Limits) (p : Path) : Option Inode := (find d limits p).map (here d.top)

def isDir (d : Tree) (i : Inode) : Bool :=
  match d.node i with
  | .dir _ => true
  | .file _ | .link _ => false

def isRegular (d : Tree) (i : Inode) : Bool :=
  match d.node i with
  | .file _ => true
  | .dir _ | .link _ => false

def isLink (d : Tree) (i : Inode) : Bool :=
  match d.node i with
  | .link _ => true
  | .dir _ | .file _ => false

def lstat (d : Tree) (limits : Limits) (p : Path) : Option Inode :=
  match p.getLast? with
  | none => some d.top
  | some n => (stat d limits (dirname p)).bind fun i => d.entry i n

def openRoot (d : Tree) (limits : Limits) (p : Path) : Option Inode :=
  (stat d limits p).filter (isDir d)

inductive OpenError
  | notExist
  | isDir
  | notDir
  | loop
  | escapes

structure Flags where
  write : Bool := false
  create : Bool := false

inductive Change
  | create (dir : Inode) (name : Name) (new : Inode)
  | truncate (file : Inode)
  | unlink (dir : Inode) (name : Name)
  deriving DecidableEq

def setNode (d : Tree) (i : Inode) (node : Disk.Node Name) : Tree :=
  {d with node := fun j => if j = i then node else d.node j}

def entriesOf (d : Tree) (i : Inode) : List (Name × Inode) :=
  match d.node i with
  | .dir entries => entries
  | .file _ | .link _ => []

def Change.apply (d : Tree) : Change → Tree
  | .create dir n new => setNode (setNode d dir (.dir ((n,new) :: entriesOf d dir))) new (.file [])
  | .truncate file => setNode d file (.file [])
  | .unlink dir n => setNode d dir (.dir ((entriesOf d dir).filter fun e => e.1 ≠ n))

def after (d : Tree) (changes : List Change) : Tree := changes.foldl Change.apply d

def openExisting (d : Tree) (flags : Flags) (i : Inode) : Except OpenError Inode :=
  match d.node i with
  | .dir _ => if flags.write then .error .isDir else .ok i
  | .file _ => .ok i
  | .link _ => .error .loop

def haltError : Halt Name → OpenError
  | .missing _ _ _ => .notExist
  | .notDir => .notDir
  | .loop => .loop
  | .escapes => .escapes

def rootOpenFile (d : Tree) (limits : Limits) (root : Inode) (rel : List (Step Name)) (flags : Flags)
    (new : Inode) : Except OpenError (Inode × List Change) :=
  match walk d true root limits.rooted [] rel with
  | .ok stack => (openExisting d flags (here root stack)).map fun i => (i,[])
  | .error (.missing stack n []) =>
    if flags.create then .ok (new,[.create (here root stack) n new]) else .error .notExist
  | .error halt => .error (haltError halt)

def rootOpenNoFollow (d : Tree) (root : Inode) (n : Name) : Except OpenError Inode :=
  match d.entry root n with
  | none => .error .notExist
  | some i => openExisting d {} i

def rootRemove (d : Tree) (limits : Limits) (root : Inode) (rel : List (Step Name)) :
    Option (List Change) :=
  match rel.getLast? with
  | some (.name n) =>
    match walk d true root limits.rooted [] rel.dropLast with
    | .ok stack =>
      match d.entry (here root stack) n with
      | some i =>
        match d.node i with
        | .dir (_ :: _) => none
        | .dir [] | .file _ | .link _ => some [.unlink (here root stack) n]
      | none => none
    | .error _ => none
  | some .up | none => none

inductive Mode
  | input
  | output
  | appending
  | update
  deriving DecidableEq

inductive Refusal
  | noRoot
  | nul
  | outside
  | dangling
  | missing
  | symlink
  | changed
  | failed (error : OpenError)

inductive Outcome
  | refused (why : Refusal)
  | file (i : Inode)
  | empty

structure Grant where
  root : Inode
  info : Inode

structure PinnedRead where
  name : Text
  path : Path
  grant : Grant
  directory : Option Inode

structure Granting where
  name : Text
  checked : Tree
  opened : Tree

structure Config where
  read : List Text
  write : List Text
  home : Text
  cwd : Path

structure Sandbox where
  cwd : Path
  home : Text
  givenRead : List Text
  givenWrite : List Text
  read : List Path := []
  write : List Path := []
  handles : List (Path × Inode) := []
  base : Text := []
  files : List (Path × Grant) := []

def rootOpenRoot (d : Tree) (limits : Limits) (root : Inode) (rel : List (Step Name)) : Option Inode :=
  ((walk d true root limits.rooted [] rel).toOption.map (here root)).filter (isDir d)

def openEntry (d : Tree) (root : Inode) (real : Path) : Option Inode :=
  match real.getLast? with
  | none => none
  | some n => (rootOpenNoFollow d root n).toOption

def pinRead (limits : Limits) (cwd : Path) (granting : Granting) : Option PinnedRead := do
  let name := abs cwd granting.name
  let real ← evalSymlinks granting.checked limits name
  let checked ← stat granting.checked limits real
  let root ← openRoot granting.opened limits (dirname real)
  if isDir granting.checked checked then do
    let directory ← rootOpenRoot granting.opened limits root (names (basename real))
    if directory = checked then
      some {name := render name,path := real,grant := ⟨root,directory⟩,directory := some directory}
    else none
  else do
    let pin ← openEntry granting.opened root real
    if pin = checked then
      some {name := render name,path := real,grant := ⟨root,pin⟩,directory := none}
    else none

def Sandbox.installRead (sb : Sandbox) (pinned : PinnedRead) : Sandbox :=
  match pinned.directory with
  | some directory =>
    match sb.handles.lookup pinned.path with
    | some _ => sb
    | none => {sb with
        givenRead := sb.givenRead ++ [pinned.name]
        read := sb.read ++ [pinned.path]
        handles := sb.handles ++ [(pinned.path,directory)]}
  | none =>
    match sb.files.lookup pinned.path with
    | some _ => sb
    | none => {sb with files := sb.files ++ [(pinned.path,pinned.grant)]}

def openHandles (d : Tree) (limits : Limits) : List Path → List (Path × Inode) → List (Path × Inode)
  | [],handles => handles
  | p :: paths,handles =>
    match handles.lookup p,openRoot d limits p with
    | none,some i => openHandles d limits paths (handles ++ [(p,i)])
    | _,_ => openHandles d limits paths handles

def roots (limits : Limits) (cfg : Config) (d : Tree) (readFiles : List Granting) : Sandbox :=
  let real := fun text => evalSymlinks d limits (abs cfg.cwd text)
  let read := (cfg.read ++ cfg.write).filterMap real
  let write := cfg.write.filterMap real
  let base := match write,read with
    | w :: _,_ => render w
    | [],r :: _ => render r
    | [],[] => []
  let sb : Sandbox := {
    cwd := cfg.cwd,home := cfg.home,givenRead := cfg.read,givenWrite := cfg.write
    read := read,write := write,handles := openHandles d limits read [],base := base}
  ((readFiles.filterMap (pinRead limits cfg.cwd)).filter fun p => p.directory.isNone).foldl
    Sandbox.installRead sb

theorem roots_base (limits : Limits) (cfg : Config) (d : Tree) : (roots limits cfg d []).base =
    match (roots limits cfg d []).write,(roots limits cfg d []).read with
    | w :: _,_ => render w
    | [],r :: _ => render r
    | [],[] => [] := rfl

def installed (limits : Limits) (cfg : Config) (d : Tree) (readFiles installs : List Granting) :
    Sandbox :=
  (installs.filterMap (pinRead limits cfg.cwd)).foldl Sandbox.installRead
    (roots limits cfg d readFiles)

namespace Sandbox

def datasetName (sb : Sandbox) (name : Text) : Path :=
  let base := if sb.home = [] then sb.base else sb.home
  abs sb.cwd (if isAbs name then name else join base name)

end Sandbox

def rel : Path → Path → List (Step Name)
  | [],p => names p
  | _ :: q,[] => .up :: rel q []
  | m :: q,n :: p => if m = n then rel q p else (m :: q).map (fun _ => .up) ++ names (n :: p)

inductive Place
  | refused (why : Refusal)
  | missing
  | found (real named : Path)

def entryPath (d : Tree) (limits : Limits) (p : Path) : Option Path :=
  (evalSymlinks d limits (dirname p)).map fun q => q ++ basename p

def checked (real : Path) (named : Option Path) (roots : List Path) : Place :=
  if !within real roots then .refused .outside else .found real (named.getD real)

namespace Sandbox

def place (sb : Sandbox) (limits : Limits) (d : Tree) (name : Text) (roots : List Path)
    (given : List Text) : Place :=
  if roots = [] then .refused .noRoot
  else if '\x00' ∈ name then .refused .nul
  else
    let wanted := sb.datasetName name
    let lexical := given.map (abs sb.cwd)
    if !within wanted lexical && !within wanted roots then .refused .outside
    else
      let named := entryPath d limits wanted
      match evalSymlinks d limits wanted with
      | some real => checked real named roots
      | none =>
        if ((lstat d limits wanted).map (isLink d)).getD false then .refused .dangling
        else
          match entryPath d limits wanted with
          | none => .missing
          | some real => checked real named roots

def closer (sb : Sandbox) (p : Path) (best : Option Path) (r : Path) : Option Path :=
  if within p [r] ∧ sb.handles.lookup r ≠ none ∧
      ∀ b ∈ best,(render r).length < (render b).length then some r
  else best

def outermost (sb : Sandbox) (p : Path) (roots : List Path) : Option Path :=
  roots.foldl (sb.closer p) none

def beneath (sb : Sandbox) (p : Path) (roots : List Path) : Option (Inode × List (Step Name)) :=
  match sb.outermost p roots with
  | none => none
  | some r => (sb.handles.lookup r).map fun root => (root,rel r p)

structure Moments where
  found : Tree
  pinned : Tree
  checked : Tree
  opened : Tree

def unambiguousGrantName (fold : Text → Text) (granted candidate : Option Name) (entries : List Name) :
    Bool :=
  let folded := fun n : Option Name => n.map fun n => fold n.1
  folded granted = folded candidate &&
    (entries.filter fun n => some (fold n.1) = folded granted).length = 1

def sameGrantName (limits : Limits) (fold : Text → Text) (d : Tree) (granted candidate : Path)
    (grant : Grant) : Bool :=
  let original := granted.getLast?.bind fun n => d.entry grant.root n
  if original = some grant.info ∧ isRegular d grant.info then
    if openRoot d limits (dirname candidate) = some grant.root then
      match d.node grant.root with
      | .dir entries =>
        unambiguousGrantName fold granted.getLast? candidate.getLast? (entries.map Prod.fst)
      | .file _ | .link _ => false
    else false
  else false

def grantOf (sb : Sandbox) (limits : Limits) (fold : Text → Text) (d : Tree) (real : Path) :
    Option Grant :=
  match sb.files.lookup real with
  | some grant => some grant
  | none => (sb.files.find? fun e => fold (render e.1) = fold (render real) &&
      sameGrantName limits fold d e.1 real e.2).map Prod.snd

def openFileGrant (sb : Sandbox) (limits : Limits) (fold : Text → Text) (m : Moments) (name : Text) :
    Option Outcome :=
  match evalSymlinks m.found limits (sb.datasetName name) with
  | none => none
  | some real =>
    match sb.grantOf limits fold m.found real with
    | none => none
    | some grant =>
      match openEntry m.pinned grant.root real with
      | some i =>
        if isRegular m.pinned i ∧ i = grant.info then some (.file i) else some (.refused .changed)
      | none => some (.refused .changed)

def flags : Mode → Flags
  | .input => {}
  | .output | .appending => {write := true,create := true}
  | .update => {write := true}

def refusal : OpenError → Refusal
  | .escapes => .outside
  | .notExist => .missing
  | .loop => .symlink
  | error => .failed error

def handed (d : Tree) (mode : Mode) (i : Inode) (changes : List Change) : Outcome × List Change :=
  let changes := if mode = .output then changes ++ [.truncate i] else changes
  (if isDir (after d changes) i then .empty else .file i,changes)

def openBeneath (sb : Sandbox) (limits : Limits) (m : Moments) (name : Text) (mode : Mode)
    (new : Inode) : Outcome × List Change :=
  let roots := if mode = .input then sb.read else sb.write
  let given := if mode = .input then sb.givenRead ++ sb.givenWrite else sb.givenWrite
  match sb.place limits m.checked name roots given with
  | .refused why => (.refused why,[])
  | .missing => (.refused .missing,[])
  | .found real _ =>
    match sb.beneath real roots with
    | none => (.refused .outside,[])
    | some (root,rel) =>
      match rootOpenFile m.opened limits root rel (flags mode) new with
      | .error error => (.refused (refusal error),[])
      | .ok (i,changes) => handed m.opened mode i changes

def «open» (sb : Sandbox) (limits : Limits) (fold : Text → Text) (m : Moments) (name : Text)
    (mode : Mode) (new : Inode) : Outcome × List Change :=
  match mode with
  | .input =>
    match sb.openFileGrant limits fold m name with
    | some (.file i) => (.file i,[])
    | some outcome =>
      if sb.read = [] then (outcome,[]) else sb.openBeneath limits m name .input new
    | none => sb.openBeneath limits m name .input new
  | mode => sb.openBeneath limits m name mode new

def delete (sb : Sandbox) (limits : Limits) (m : Moments) (name : Text) : Option (List Change) :=
  match sb.place limits m.checked name sb.write sb.givenWrite with
  | .refused _ | .missing => none
  | .found _ named =>
    match sb.beneath named sb.write with
    | none => none
    | some (root,rel) => rootRemove m.opened limits root rel

end Sandbox

end OpenSteamgate.Dataset
