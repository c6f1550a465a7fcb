import OpenSteamgate.Library.Disk
import OpenSteamgate.Library.Wtf8

namespace OpenSteamgate.Dataset

open Disk (Step)

-- the bytes of a name, a character for each
abbrev Text := List Char

-- a name of the program is code points, lone halves of pairs among them
def goText (name : List Nat) : Text := (Wtf8.bytes name).map fun b => Char.ofNat b.toNat

-- Node.js hands the system U+FFFD in the place of a lone half
def nodeText (name : List Nat) : Text := goText (name.map fun p => if Wtf8.Half p then 0xfffd else p)

def Proper (segment : Text) : Prop :=
  segment ≠ [] ∧ '/' ∉ segment ∧ segment ≠ ['.'] ∧ segment ≠ ['.','.']

instance : DecidablePred Proper := fun _ => inferInstanceAs (Decidable (_ ∧ _))

abbrev Name := {segment : Text // Proper segment}

abbrev Path := List Name

def stepOf (segment : Text) : Option (Step Name) :=
  if segment = ['.','.'] then some .up
  else if h : Proper segment then some (.name ⟨segment,h⟩) else none

def steps (text : Text) : List (Step Name) := (text.splitOn '/').filterMap stepOf

def isAbs (text : Text) : Bool := text.head? = some '/'

def clean : Path → List (Step Name) → Path
  | dir,[] => dir
  | dir,.up :: rest => clean dir.dropLast rest
  | dir,.name n :: rest => clean (dir ++ [n]) rest

def render : Path → Text
  | [] => ['/']
  | path => path.flatMap fun n => '/' :: n.1

def abs (cwd : Path) (text : Text) : Path := clean (if isAbs text then [] else cwd) (steps text)

def join (base name : Text) : Text := if base = [] then name else base ++ '/' :: name

def trimSuffix (text suffix : Text) : Text :=
  if suffix.isSuffixOf text then text.take (text.length - suffix.length) else text

def within (candidate : Path) (roots : List Path) : Bool :=
  roots.any fun root => render candidate = render root ||
    (trimSuffix (render root) ['/'] ++ ['/']).isPrefixOf (render candidate)

def basename (path : Path) : List Name := path.getLast?.toList

def dirname (path : Path) : Path := path.dropLast

def resolveFrom (cwd : Path) : List Text → List (Step Name) → Path
  | [],rest => clean cwd rest
  | text :: texts,rest =>
    if isAbs text then clean [] (steps text ++ rest) else resolveFrom cwd texts (steps text ++ rest)

def resolve (cwd : Path) (texts : List Text) : Path := resolveFrom cwd texts.reverse []

variable {p q : Path} {n m : Name} {a b : Text}

theorem steps_join (a b : Text) : steps (a ++ '/' :: b) = steps a ++ steps b := by
  rw [steps,List.splitOn_append_cons_self,List.filterMap_append]
  rfl

def ended (p : Path) : Text := p.flatMap fun n => n.1 ++ ['/']

theorem word_prefix {x y : Text} (ha : '/' ∉ a) (hb : '/' ∉ b) :
    a ++ '/' :: x <+: b ++ '/' :: y ↔ a = b ∧ x <+: y := by
  induction a generalizing b with
  | nil =>
    cases b with
    | nil => simp [List.cons_prefix_cons]
    | cons c b => simp [List.cons_prefix_cons,Ne.symm (List.ne_of_not_mem_cons hb).symm]
  | cons c a ih =>
    cases b with
    | nil => simp [List.cons_prefix_cons,(List.ne_of_not_mem_cons ha).symm]
    | cons e b =>
      have hrest := ih (List.not_mem_of_not_mem_cons ha) (List.not_mem_of_not_mem_cons hb)
      simp [List.cons_prefix_cons,hrest,and_assoc]

theorem ended_begins : ended q <+: ended p ↔ q <+: p := by
  induction q generalizing p with
  | nil => simp [ended]
  | cons n q ih =>
    cases p with
    | nil => simp [ended,List.prefix_nil]
    | cons m p =>
      have hword : ended (n :: q) <+: ended (m :: p) ↔ n.1 = m.1 ∧ ended q <+: ended p := by
        simp only [ended,List.flatMap_cons,List.append_assoc,List.singleton_append]
        exact word_prefix n.2.2.1 m.2.2.1
      rw [hword,ih,List.cons_prefix_cons,Subtype.ext_iff]

theorem body_ended (p : Path) : (p.flatMap fun n => '/' :: n.1) ++ ['/'] = '/' :: ended p := by
  induction p with
  | nil => rfl
  | cons n p ih =>
    rw [List.flatMap_cons,List.append_assoc,ih]
    simp [ended]

theorem render_ended (h : p ≠ []) : render p ++ ['/'] = '/' :: ended p := by
  cases p with
  | nil => exact absurd rfl h
  | cons n p => exact body_ended (n :: p)

theorem prefix_snoc {x y : Text} {c : Char} : x ++ [c] <+: y ++ [c] ↔ y = x ∨ x ++ [c] <+: y := by
  rw [List.prefix_concat_iff]
  constructor
  · rintro (h | h)
    · exact .inl (List.append_inj_left' h rfl).symm
    · exact .inr h
  · rintro (rfl | h)
    · exact .inl rfl
    · exact .inr h

theorem not_suffix_render (h : p ≠ []) : ¬['/'] <:+ render p := by
  rintro ⟨t,ht⟩
  have hlast := render_ended h
  obtain ⟨init,n,rfl⟩ := List.eq_nil_or_concat p |>.resolve_left h
  rw [List.concat_eq_append] at ht hlast
  obtain ⟨pre,c,hn⟩ := (List.eq_nil_or_concat n.1).resolve_left n.2.1
  have hc : c ∈ n.1 := by
    rw [hn,List.concat_eq_append]
    exact List.mem_concat_self
  have hended : ended (init ++ [n]) = ended init ++ pre ++ [c] ++ ['/'] := by
    simp [ended,hn]
  rw [hended,← List.cons_append] at hlast
  have hrender := List.append_inj_left' hlast rfl
  rw [← ht,← List.cons_append] at hrender
  have hslash := (List.append_inj' hrender rfl).2
  exact n.2.2.1 ((List.cons.inj hslash).1 ▸ hc)

theorem within_one (p r : Path) : (render p = render r ||
    (trimSuffix (render r) ['/'] ++ ['/']).isPrefixOf (render p)) = true ↔ r <+: p := by
  rw [Bool.or_eq_true,decide_eq_true_eq,List.isPrefixOf_iff_prefix]
  by_cases hr : r = []
  · subst hr
    refine ⟨fun _ => List.nil_prefix,fun _ => .inr ?_⟩
    cases p with
    | nil => exact List.prefix_rfl
    | cons n p => exact List.prefix_append ['/'] _
  · have htrim : trimSuffix (render r) ['/'] = render r :=
      if_neg fun hsuffix => not_suffix_render hr (List.isSuffixOf_iff_suffix.mp hsuffix)
    rw [htrim]
    by_cases hp : p = []
    · subst hp
      have hlong : 1 < (render r).length := by
        cases r with
        | nil => exact absurd rfl hr
        | cons n r =>
          have hn := List.length_pos_iff.mpr n.2.1
          simp [render]
          omega
      rw [List.prefix_nil]
      refine ⟨fun h => ?_,fun h => absurd h hr⟩
      rcases h with h | h
      · rw [← h] at hlong
        exact absurd hlong (by decide)
      · have hle := h.length_le
        rw [List.length_append] at hle
        change _ + 1 ≤ 1 at hle
        omega
    · rw [← prefix_snoc,render_ended hp,render_ended hr,List.prefix_cons_inj,ended_begins]

theorem within_iff {roots : List Path} : within p roots = true ↔ ∃ r ∈ roots,r <+: p := by
  rw [within,List.any_eq_true]
  exact exists_congr fun r => and_congr_right fun _ => within_one p r

end OpenSteamgate.Dataset
