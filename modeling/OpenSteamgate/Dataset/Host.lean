import Mathlib.Data.List.MinMax
import OpenSteamgate.Dataset.Sandbox

namespace OpenSteamgate.Dataset.Host

open Disk (Inode Step)

structure Roots where
  read : List Path
  write : List Path

def load (limits : Limits) (cfg : Config) (d : Tree) : Roots :=
  let real := fun text => evalSymlinks d limits (resolve cfg.cwd [text])
  {read := (cfg.read ++ cfg.write).filterMap real,write := cfg.write.filterMap real}

def holds (candidate root : Path) : Bool :=
  render candidate = render root ||
    (if ['/'].isSuffixOf (render root) then render root else render root ++ ['/']).isPrefixOf
      (render candidate)

def within (candidate : Path) (roots : List Path) : Bool := roots.any (holds candidate)

def home (cfg : Config) : Option Text := if cfg.home = [] then none else some cfg.home

def wanted (cfg : Config) (roots : Roots) (name : Text) : Path :=
  let base := (home cfg).or ((roots.write.head?.map render).or (roots.read.head?.map render))
  resolve cfg.cwd [base.getD ['.'],name]

def placed (real : Path) (named : Option Path) (roots : List Path) : Place :=
  if within real roots then .found real (named.getD real) else .refused .outside

-- the path is compared as it is spelled, the system is asked for it as node:fs spells it
def place (limits : Limits) (cfg : Config) (resolved : Roots) (d : Tree) (name : List Nat)
    (roots : List Path) (given : List Text) : Place :=
  if roots.length = 0 then .refused .noRoot
  else if (goText name).contains '\x00' then .refused .nul
  else
    let asked := wanted cfg resolved (nodeText name)
    let wanted := wanted cfg resolved (goText name)
    let lexical := given.map fun text => resolve cfg.cwd [text]
    if !within wanted lexical && !within wanted roots then .refused .outside
    else
      let named := entryPath d limits asked
      match evalSymlinks d limits asked with
      | some real => placed real named roots
      | none =>
        if ((lstat d limits asked).map (isLink d)).getD false then .refused .dangling
        else
          match entryPath d limits asked with
          | some real => placed real named roots
          | none => .missing

def openDirectory (d : Tree) (i : Option Inode) : Except OpenError Inode :=
  match i with
  | none => .error .notExist
  | some i => if isDir d i then .ok i else .error .notDir

def walkDown (d : Tree) : Inode → List Name → Except OpenError Inode
  | dir,[] => .ok dir
  | dir,part :: parts => do
    let next ← openDirectory d (d.entry dir part)
    walkDown d next parts

inductive Parent
  | undefined
  | moved (error : OpenError)
  | found (dir : Inode) (base : Name) (landed : Path)

def outermost (real : Path) (roots : List Path) : Option Path :=
  (roots.filter fun r => within real [r]).argmin fun r => (render r).length

def parentBeneath (limits : Limits) (d : Tree) (real : Path) (roots : List Path) : Parent :=
  match outermost real roots with
  | none => .undefined
  | some root =>
    if real = root then .undefined
    else
      match openDirectory d (lstat d limits root) with
      | .error error => .moved error
      | .ok dir =>
        if entryPath d limits root ≠ some root then .moved .loop
        else
          let parts := real.drop root.length
          match parts.getLast?,walkDown d dir parts.dropLast with
          | some base,.ok dir => .found dir base (root ++ parts)
          | _,.error error => .moved error
          | none,.ok _ => .undefined

def openIn (d : Tree) (dir : Inode) (n : Name) (flags : Flags) (new : Inode) :
    Except OpenError (Inode × List Change) :=
  match d.node dir with
  | .dir _ =>
    match d.entry dir n with
    | some i => (openExisting d flags i).map fun i => (i,[])
    | none => if flags.create then .ok (new,[.create dir n new]) else .error .notExist
  | .file _ | .link _ => .error .notDir

def openPath (limits : Limits) (d : Tree) (p : Path) (flags : Flags) (new : Inode) :
    Except OpenError (Inode × List Change) :=
  match p.getLast? with
  | none => (openExisting d flags d.top).map fun i => (i,[])
  | some n =>
    match stat d limits (dirname p) with
    | some dir => openIn d dir n flags new
    | none => .error .notExist

def message : OpenError → Refusal
  | .notExist => .missing
  | .loop => .symlink
  | error => .failed error

def moved : OpenError → Refusal
  | .notExist => .missing
  | _ => .outside

def finish (d : Tree) (mode : Mode) (roots : List Path) (actual : Option Path) (i : Inode)
    (changes : List Change) : Outcome × List Change :=
  if (actual.map fun p => !within p roots).getD false then (.refused .outside,changes)
  else
    let changes := if mode = .output then changes ++ [.truncate i] else changes
    (if isDir (after d changes) i then .empty else .file i,changes)

-- loaded: resolvedRoots, the roots as they resolved at the host's first use
def «open» (limits : Limits) (cfg : Config) (loaded : Roots) (d : Tree)
    (name : List Nat) (mode : Mode) (new : Inode) : Outcome × List Change :=
  let writing := mode = .output ∨ mode = .appending ∨ mode = .update
  let roots := if writing then loaded.write else loaded.read
  let given := if writing then cfg.write else cfg.read ++ cfg.write
  match place limits cfg loaded d name roots given with
  | .refused why => (.refused why,[])
  | .missing => (.refused .missing,[])
  | .found real _ =>
    let flags : Flags := match mode with
      | .input => {}
      | .output | .appending => {write := true,create := true}
      | .update => {write := true}
    match parentBeneath limits d real roots with
    | .moved error => (.refused (moved error),[])
    | .found dir base landed =>
      match openIn d dir base flags new with
      | .error error => (.refused (message error),[])
      | .ok (i,changes) => finish d mode roots (some landed) i changes
    | .undefined =>
      match openPath limits d real flags new with
      | .error error => (.refused (message error),[])
      | .ok (i,changes) => finish d mode roots (entryPath d limits real) i changes

def unlinkIn (d : Tree) (dir : Inode) (n : Name) : Option (List Change) :=
  match d.entry dir n with
  | none => none
  | some i => if isDir d i then none else some [.unlink dir n]

def unlinkPath (limits : Limits) (d : Tree) (p : Path) : Option (List Change) :=
  match p.getLast?,stat d limits (dirname p) with
  | some n,some dir => unlinkIn d dir n
  | _,_ => none

def delete (limits : Limits) (cfg : Config) (loaded : Roots) (d : Tree) (name : List Nat) :
    Option (List Change) :=
  match place limits cfg loaded d name loaded.write cfg.write with
  | .refused _ | .missing => none
  | .found _ named =>
    match parentBeneath limits d named loaded.write with
    | .moved _ => none
    | .found dir base _ => unlinkIn d dir base
    | .undefined => unlinkPath limits d named

end OpenSteamgate.Dataset.Host
