import Mathlib.Data.List.Basic
import Mathlib.Data.List.Lookmap

namespace Disk

abbrev Inode := Nat

inductive Step (α : Type)
  | up
  | name (n : α)

structure Target (α : Type) where
  absolute : Bool
  steps : List (Step α)

inductive Node (α : Type)
  | dir (entries : List (α × Inode))
  | file (content : List UInt8)
  | link (target : Target α)

abbrev Stack (α : Type) := List (α × Inode)

def here {α : Type} (base : Inode) : Stack α → Inode
  | [] => base
  | e :: _ => e.2

def path {α : Type} (stack : Stack α) : List α := (stack.map Prod.fst).reverse

inductive Halt (α : Type)
  | missing (stack : Stack α) (name : α) (rest : List (Step α))
  | notDir
  | loop
  | escapes

inductive Progress (α : Type)
  | arrived (stack : Stack α)
  | halted (halt : Halt α)
  | linked (stack : Stack α) (target : Target α) (rest : List (Step α))

end Disk

structure Disk (α : Type) where
  top : Disk.Inode
  node : Disk.Inode → Disk.Node α

namespace Disk

section levels

variable {α : Type}

def names (p : List α) : List (Step α) := p.map .name

theorem names_append (p q : List α) : names (p ++ q) = names p ++ names q := List.map_append

theorem path_append (more stack : Stack α) : path (more ++ stack) = path stack ++ path more := by
  rw [path,List.map_append,List.reverse_append]
  rfl

theorem path_cons (e : α × Inode) (stack : Stack α) : path (e :: stack) = path stack ++ [e.1] :=
  List.reverse_cons

theorem here_append (base : Inode) (more stack : Stack α) :
    here base (more ++ stack) = here (here base stack) more := by
  cases more with
  | nil => rfl
  | cons e more => rfl

end levels

variable {α : Type} [DecidableEq α] {d d' : Disk α} {confined : Bool} {base i j : Inode}
  {stack stack' below : Stack α} {step : Step α} {steps rest : List (Step α)} {n : α} {links : Nat}

def entry (d : Disk α) (i : Inode) (n : α) : Option Inode :=
  match d.node i with
  | .dir entries => entries.lookup n
  | .file _ | .link _ => none

@[grind =] def advance (d : Disk α) (confined : Bool) (base : Inode) : Stack α → List (Step α) → Progress α
  | stack,[] => .arrived stack
  | stack,step :: rest =>
    match d.node (here base stack) with
    | .dir entries =>
      match step,stack with
      | .up,[] => if confined then .halted .escapes else advance d confined base [] rest
      | .up,_ :: below => advance d confined base below rest
      | .name n,stack =>
        match entries.lookup n with
        | none => .halted (.missing stack n rest)
        | some i =>
          match d.node i with
          | .link target => .linked stack target rest
          | .dir _ | .file _ => advance d confined base ((n,i) :: stack) rest
    | .file _ | .link _ => .halted .notDir

def walk (d : Disk α) (confined : Bool) (base : Inode) :
    Nat → Stack α → List (Step α) → Except (Halt α) (Stack α)
  | links,stack,steps =>
    match advance d confined base stack steps with
    | .arrived stack => .ok stack
    | .halted halt => .error halt
    | .linked stack target rest =>
      if target.absolute = true ∧ confined = true then .error .escapes
      else
        match links with
        | 0 => .error .loop
        | links + 1 =>
          walk d confined base links (if target.absolute then [] else stack) (target.steps ++ rest)

def Descends (d : Disk α) (base : Inode) : Stack α → Prop
  | [] => True
  | (n,i) :: below =>
    d.entry (here base below) n = some i ∧ (∀ target,d.node i ≠ .link target) ∧ Descends d base below

def Beneath (d : Disk α) (base i : Inode) : Prop := ∃ stack,Descends d base stack ∧ here base stack = i

theorem entry_of_dir {entries : List (α × Inode)} (h : d.node i = .dir entries) (n : α) :
    d.entry i n = entries.lookup n := by
  rw [entry,h]

def Halt.Sound (d : Disk α) (base : Inode) : Halt α → Prop
  | .missing stack n _ => Descends d base stack ∧ d.entry (here base stack) n = none ∧
      ∃ entries,d.node (here base stack) = .dir entries
  | .notDir | .loop | .escapes => True

def Progress.Sound (d : Disk α) (base : Inode) : Progress α → Prop
  | .arrived stack => Descends d base stack
  | .halted halt => halt.Sound d base
  | .linked stack _ _ => Descends d base stack

theorem advance_sound (h : Descends d base stack) :
    (advance d confined base stack steps).Sound d base := by
  fun_induction advance d confined base stack steps with
  | case1 => exact h
  | case2 => exact trivial
  | case3 rest entries hconfined hdir ih => exact ih h
  | case4 rest entries e below hdir ih => exact ih h.2.2
  | case5 rest entries n stack hlookup hdir =>
    exact ⟨h,(entry_of_dir hdir n).trans hlookup,entries,hdir⟩
  | case6 => exact h
  | case7 rest entries n stack i hlookup inner hi hdir ih =>
    refine ih ⟨(entry_of_dir hdir n).trans hlookup,fun target ht => ?_,h⟩
    rw [hi] at ht
    exact nomatch ht
  | case8 rest entries n stack i hlookup content hi hdir ih =>
    refine ih ⟨(entry_of_dir hdir n).trans hlookup,fun target ht => ?_,h⟩
    rw [hi] at ht
    exact nomatch ht
  | case9 => exact trivial
  | case10 => exact trivial

def Reached (d : Disk α) (base : Inode) : Except (Halt α) (Stack α) → Prop
  | .ok stack => Descends d base stack
  | .error halt => halt.Sound d base

theorem walk_sound (h : Descends d base stack) :
    Reached d base (walk d confined base links stack steps) := by
  induction links generalizing stack steps with
  | zero =>
    have hsound := @advance_sound α _ d confined base stack steps h
    rw [walk]
    cases hadvance : advance d confined base stack steps with
    | arrived stack | halted halt =>
      rw [hadvance] at hsound
      exact hsound
    | linked stack target rest =>
      change Reached d base (if _ then _ else _)
      split
      · exact trivial
      · exact trivial
  | succ links ih =>
    have hsound := @advance_sound α _ d confined base stack steps h
    rw [walk]
    cases hadvance : advance d confined base stack steps with
    | arrived stack | halted halt =>
      rw [hadvance] at hsound
      exact hsound
    | linked stack target rest =>
      rw [hadvance] at hsound
      change Reached d base (if _ then _ else _)
      split
      · exact trivial
      · apply ih
        split
        · exact trivial
        · exact hsound

theorem walk_ok (h : walk d confined base links [] steps = .ok stack) : Descends d base stack := by
  have hsound := @walk_sound α _ d confined base [] steps links trivial
  rw [h] at hsound
  exact hsound

theorem walk_missing (h : walk d confined base links [] steps = .error (.missing stack n rest)) :
    Descends d base stack ∧ d.entry (here base stack) n = none ∧
      ∃ entries,d.node (here base stack) = .dir entries := by
  have hsound := @walk_sound α _ d confined base [] steps links trivial
  rw [h] at hsound
  exact hsound

theorem Descends.beneath (h : Descends d base stack) : Beneath d base (here base stack) :=
  ⟨stack,h,rfl⟩

variable {more : Stack α}

theorem descends_append : Descends d base (more ++ stack) ↔
    Descends d (here base stack) more ∧ Descends d base stack := by
  induction more with
  | nil => exact ⟨fun h => ⟨trivial,h⟩,fun h => h.2⟩
  | cons e more ih =>
    obtain ⟨n,i⟩ := e
    rw [List.cons_append,Descends,Descends,here_append,ih,and_assoc,and_assoc]

theorem entry_some (h : d.entry i n = some j) : ∃ entries,d.node i = .dir entries := by
  rw [entry] at h
  split at h
  · exact ⟨_,by assumption⟩
  · exact nomatch h
  · exact nomatch h

def Progress.onward (d : Disk α) (confined : Bool) (base : Inode) (rest : List (Step α)) :
    Progress α → Progress α
  | .arrived stack => advance d confined base stack rest
  | .halted (.missing stack n left) => .halted (.missing stack n (left ++ rest))
  | .halted .notDir => .halted .notDir
  | .halted .loop => .halted .loop
  | .halted .escapes => .halted .escapes
  | .linked stack target left => .linked stack target (left ++ rest)

theorem advance_append (d : Disk α) (confined : Bool) (base : Inode) (stack : Stack α)
    (steps rest : List (Step α)) : advance d confined base stack (steps ++ rest) =
      (advance d confined base stack steps).onward d confined base rest := by
  fun_induction advance d confined base stack steps with
  | case1 stack => rfl
  | case2 left entries hconfined hdir =>
    simp only [List.cons_append,advance,hdir,hconfined,if_true,Progress.onward]
  | case3 left entries hconfined hdir ih =>
    rw [List.cons_append,advance,hdir]
    exact (if_neg hconfined).trans ih
  | case4 left entries e below hdir ih =>
    simp only [List.cons_append,advance,hdir,ih]
  | case5 left entries n stack hlookup hdir =>
    simp only [List.cons_append,advance,hdir,hlookup,Progress.onward]
  | case6 left entries n stack i hlookup target hi hdir =>
    simp only [List.cons_append,advance,hdir,hlookup,hi,Progress.onward]
  | case7 left entries n stack i hlookup inner hi hdir ih =>
    simp only [List.cons_append,advance,hdir,hlookup,hi,ih]
  | case8 left entries n stack i hlookup content hi hdir ih =>
    simp only [List.cons_append,advance,hdir,hlookup,hi,ih]
  | case9 stack step left content hnode =>
    simp only [List.cons_append,advance,hnode,Progress.onward]
  | case10 stack step left target hnode =>
    simp only [List.cons_append,advance,hnode,Progress.onward]

theorem advance_name (h : d.entry (here base stack) n = some i) (hlink : ∀ target,d.node i ≠ .link target) :
    advance d confined base stack (.name n :: rest) =
      advance d confined base ((n,i) :: stack) rest := by
  obtain ⟨entries,hdir⟩ := entry_some h
  rw [entry_of_dir hdir] at h
  cases hi : d.node i with
  | dir inner => simp only [advance,hdir,h,hi]
  | file content => simp only [advance,hdir,h,hi]
  | link target => exact absurd hi (hlink target)

theorem advance_names (h : Descends d base (more ++ stack)) :
    advance d confined base stack (names (path more)) = .arrived (more ++ stack) := by
  induction more with
  | nil => rfl
  | cons e more ih =>
    obtain ⟨n,i⟩ := e
    obtain ⟨hentry,hlink,hbelow⟩ := h
    rw [path_cons,names_append,advance_append,ih hbelow]
    exact advance_name hentry hlink

theorem walk_arrived (h : advance d confined base stack steps = .arrived stack') :
    walk d confined base links stack steps = .ok stack' := by
  cases links with
  | zero => simp only [walk,h]
  | succ links => simp only [walk,h]

theorem walk_halted {halt : Halt α} (h : advance d confined base stack steps = .halted halt) :
    walk d confined base links stack steps = .error halt := by
  cases links with
  | zero => simp only [walk,h]
  | succ links => simp only [walk,h]

theorem walk_linked {target : Target α} (h : advance d confined base stack steps = .linked stack' target rest)
    (hescape : ¬(target.absolute = true ∧ confined = true)) :
    walk d confined base (links + 1) stack steps = walk d confined base links
      (if target.absolute then [] else stack') (target.steps ++ rest) := by
  rw [walk,h]
  exact if_neg hescape

theorem walk_names (h : Descends d base stack) :
    walk d confined base links [] (names (path stack)) = .ok stack := by
  refine walk_arrived ?_
  have hnames := @advance_names α _ d confined base [] stack (by rwa [List.append_nil])
  rwa [List.append_nil] at hnames

theorem descends_unique (h : Descends d base stack) (h' : Descends d base stack')
    (hpath : path stack = path stack') : stack = stack' := by
  have hwalk := @walk_names α _ d true base stack 0 h
  rw [hpath,walk_names h'] at hwalk
  exact (Except.ok.inj hwalk).symm

theorem descends_prefix (h : Descends d base stack) (h' : Descends d base stack')
    (hpath : path stack' <+: path stack) : ∃ more,stack = more ++ stack' := by
  have hlen : (path stack').length = stack'.length := by
    rw [path,List.length_reverse,List.length_map]
  have hall : (path stack).length = stack.length := by
    rw [path,List.length_reverse,List.length_map]
  have hle := hpath.length_le
  have hsplit := List.take_append_drop (stack.length - stack'.length) stack
  rw [← hsplit] at h
  have hdrop : path (stack.drop (stack.length - stack'.length)) = path stack' := by
    rw [List.prefix_iff_eq_take.mp hpath,path,List.map_drop,List.reverse_drop,List.length_map,hlen]
    congr 1
    omega
  have hbelow := descends_unique ((descends_append).mp h).2 h' hdrop
  exact ⟨_,hsplit.symm.trans (congrArg _ hbelow)⟩

theorem walk_append (h : walk d confined base links stack steps = .ok stack') :
    ∃ left,∀ rest,walk d confined base links stack (steps ++ rest) =
      walk d confined base left stack' rest := by
  induction links generalizing stack steps with
  | zero =>
    cases hadvance : advance d confined base stack steps with
    | arrived s =>
      rw [walk,hadvance] at h
      obtain rfl := Except.ok.inj h
      refine ⟨0,fun rest => ?_⟩
      rw [walk,walk,advance_append,hadvance]
      rfl
    | halted halt =>
      rw [walk,hadvance] at h
      exact nomatch h
    | linked s target left =>
      rw [walk,hadvance] at h
      change (if _ then _ else _) = _ at h
      split at h
      · exact nomatch h
      · exact nomatch h
  | succ links ih =>
    cases hadvance : advance d confined base stack steps with
    | arrived s =>
      rw [walk,hadvance] at h
      obtain rfl := Except.ok.inj h
      refine ⟨links + 1,fun rest => ?_⟩
      rw [walk,walk,advance_append,hadvance]
      rfl
    | halted halt =>
      rw [walk,hadvance] at h
      exact nomatch h
    | linked s target left =>
      rw [walk,hadvance] at h
      change (if _ then _ else _) = _ at h
      split at h
      · exact nomatch h
      · rename_i hescape
        obtain ⟨more,hmore⟩ := ih h
        refine ⟨more,fun rest => ?_⟩
        rw [← hmore,walk,advance_append,hadvance,List.append_assoc]
        exact if_neg hescape

theorem walk_before (h : walk d confined base links stack (steps ++ rest) = .ok stack') :
    ∃ between,walk d confined base links stack steps = .ok between := by
  induction links generalizing stack steps with
  | zero =>
    rw [walk,advance_append] at h
    cases hadvance : advance d confined base stack steps with
    | arrived s => exact ⟨s,walk_arrived hadvance⟩
    | halted halt =>
      rw [hadvance] at h
      cases halt with
      | missing | notDir | loop | escapes => exact nomatch h
    | linked s target left =>
      rw [hadvance] at h
      change (if _ then _ else _) = _ at h
      split at h
      · exact nomatch h
      · exact nomatch h
  | succ links ih =>
    rw [walk,advance_append] at h
    cases hadvance : advance d confined base stack steps with
    | arrived s => exact ⟨s,walk_arrived hadvance⟩
    | halted halt =>
      rw [hadvance] at h
      cases halt with
      | missing | notDir | loop | escapes => exact nomatch h
    | linked s target left =>
      rw [hadvance] at h
      change (if _ then _ else _) = _ at h
      split at h
      · exact nomatch h
      · rename_i hescape
        rw [← List.append_assoc] at h
        rw [walk_linked hadvance hescape]
        exact ih h

theorem walk_name (h : walk d confined base links stack [.name n] = .ok stack') :
    ∃ i,d.entry (here base stack) n = some i ∧
      ((∀ target,d.node i ≠ .link target) → stack' = (n,i) :: stack) := by
  cases hentry : d.entry (here base stack) n with
  | none =>
    have hhalt : ∃ halt,advance d confined base stack [.name n] = .halted halt := by
      cases hnode : d.node (here base stack) with
      | dir entries =>
        rw [entry_of_dir hnode] at hentry
        exact ⟨_,by simp only [advance,hnode,hentry]; rfl⟩
      | file content => exact ⟨_,by simp only [advance,hnode]; rfl⟩
      | link target => exact ⟨_,by simp only [advance,hnode]; rfl⟩
    obtain ⟨halt,hhalt⟩ := hhalt
    rw [walk_halted hhalt] at h
    exact nomatch h
  | some i =>
    refine ⟨i,rfl,fun hlink => ?_⟩
    have hadvance := @advance_name α _ d confined base i stack [] n hentry hlink
    rw [walk_arrived (hadvance.trans rfl)] at h
    exact (Except.ok.inj h).symm

end Disk
