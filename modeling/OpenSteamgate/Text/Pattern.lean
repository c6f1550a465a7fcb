import Mathlib.Data.List.TakeWhile
import OpenSteamgate.Library.Wildcard
import OpenSteamgate.Text.Joining

namespace OpenSteamgate.Text

open Wtf8 Wildcard

structure Folding where
  fold : Nat → Nat
  ascii : ∀ a b,a < 128 → b < 128 → (fold a = fold b ↔
    (if 65 ≤ a ∧ a ≤ 90 then a + 32 else a) = if 65 ≤ b ∧ b ≤ 90 then b + 32 else b)

namespace Folding

variable (u : Folding)

def simpleFold (r : Nat) : Nat :=
  if limit ≤ r then r
  else match (List.range' (r + 1) (limit - (r + 1))).find? fun x => u.fold x = u.fold r with
    | some x => x
    | none => ((List.range limit).find? fun x => u.fold x = u.fold r).getD r

-- every round passes a character that was not seen before, so that the limit is fuel enough
def foldLoop (a b : Nat) : Nat → Nat → Bool
  | 0,_ => false
  | fuel + 1,r =>
    if r = a then false
    else if r = b then true
    else foldLoop a b fuel (u.simpleFold r)

def foldEq (a b : Nat) : Bool :=
  if a = b then true
  else if a < 128 ∧ b < 128 then
    (if 65 ≤ a ∧ a ≤ 90 then a + 32 else a) == if 65 ≤ b ∧ b ≤ 90 then b + 32 else b
  else u.foldLoop a b (limit + 1) (u.simpleFold a)

end Folding

inductive Single
  | literal (r : Nat)
  | escaped (r : Nat)
  | any
  deriving DecidableEq

abbrev CpTok := Item Single

def runes (v : List UInt8) : List Nat :=
  if _ : v = [] then []
  else (decodeRune v).1 :: runes (v.drop (decodeRune v).2)
termination_by v.length
decreasing_by exact drop_shorter ‹_› (decodeRune_pos ‹_›)

def runes16 (v : List UInt8) : List Nat :=
  if _ : v = [] then []
  else (decode16 v).1 :: runes16 (v.drop (decode16 v).2)
termination_by v.length
decreasing_by exact drop_shorter ‹_› (decode16_pos ‹_›)

def runesWTF8 (v : List UInt8) : List Nat := if !hasHalf v then runes v else runes16 v

def tokensOf : List Nat → List CpTok
  | [] => []
  | [r] => [if r = 42 then .run else if r = 43 then .one .any else .one (.literal r)]
  | r :: t :: rs =>
    if r = 35 then .one (.escaped t) :: tokensOf rs
    else if r = 42 then .run :: tokensOf (t :: rs)
    else if r = 43 then .one .any :: tokensOf (t :: rs)
    else .one (.literal r) :: tokensOf (t :: rs)

def cpTokens (p : List UInt8) : List CpTok := tokensOf (runesWTF8 p)

def dropBlanks (ps : List CpTok) : List CpTok :=
  if _h : 1 < ps.length ∧ ps.getLast? = some (.one (.literal 32)) then dropBlanks ps.dropLast else ps
termination_by ps.length
decreasing_by
  rw [List.length_dropLast]
  omega

def pattern (p : List UInt8) (cpat : Bool) : List CpTok :=
  let p := if cpat ∧ p = [] then [32] else p
  let ps := cpTokens p
  if cpat then dropBlanks ps else ps

def subject (a : List UInt8) : List Nat := if allASCII a then a.map UInt8.toNat else runesWTF8 a

def eq (u : Folding) (t : Single) (c : Nat) : Bool :=
  match t with
  | .any => true
  | .escaped r => r = c
  | .literal r => u.foldEq r c

def takes (u : Folding) (t : Option CpTok) (c : Nat) : Bool :=
  match t with
  | some (.one t) => eq u t c
  | some .run => false
  | none => false

def cpLoop (u : Folding) (ps : List CpTok) (ar : List Nat) (csubject : Bool) (i j : Nat)
    (star : Option Nat) (mark : Nat) : Bool :=
  if h : i < ar.length then
    if j = ps.length ∧ csubject ∧ (ar.drop i).all (· = 32) then true
    else if takes u ps[j]? ar[i] then cpLoop u ps ar csubject (i + 1) (j + 1) star mark
    else if hj : ps[j]? = some .run then cpLoop u ps ar csubject i (j + 1) (some j) i
    else match star with
      | some star => cpLoop u ps ar csubject (mark + 1) (star + 1) (some star) (mark + 1)
      | none => false
  else (ps.drop j).dropWhile (· = .run) = []
termination_by (max (ps.length - j) (star.elim 0 fun s => ps.length - (s + 1)),ar.length - mark,
  ar.length - i)
decreasing_by
  · simp only [Prod.lex_def,true_and]
    omega
  · have hlt := (List.getElem?_eq_some_iff.mp hj).1
    simp only [Prod.lex_def,Option.elim_some]
    omega
  · simp only [Prod.lex_def,Option.elim_some]
    omega

def cp (u : Folding) (a p : List UInt8) (cpat csubject : Bool) : Bool :=
  cpLoop u (pattern p cpat) (subject a) csubject 0 0 none 0

section folding

variable (u : Folding) {a b r : Nat}

def behind (a r : Nat) : Nat := if a < r then r - a else r + limit - a

theorem behind_between {x : Nat} (ha : a < limit) (hr : r < limit) (hx : x < limit) (hb : b < limit)
    (hle : behind a r ≤ behind a b) (hnext : behind r x ≤ behind r b) (hne : r ≠ b) :
    behind a r < behind a x ∧ behind a x ≤ behind a b := by
  unfold behind at *
  split_ifs at * <;> omega

theorem simpleFold_class (hr : r < limit) :
    u.simpleFold r < limit ∧ u.fold (u.simpleFold r) = u.fold r := by
  rw [Folding.simpleFold,if_neg (Nat.not_le.mpr hr)]
  cases hlater : (List.range' (r + 1) (limit - (r + 1))).find? fun x => decide (u.fold x = u.fold r) with
  | some x =>
    have hmem := List.mem_range'_1.mp (List.mem_of_find?_eq_some hlater)
    have hfold := List.find?_some hlater
    exact ⟨by simp only; omega,by simpa using hfold⟩
  | none =>
    cases hfirst : (List.range limit).find? fun x => decide (u.fold x = u.fold r) with
    | some x =>
      have hfold := List.find?_some hfirst
      exact ⟨List.mem_range.mp (List.mem_of_find?_eq_some hfirst),by simpa using hfold⟩
    | none => exact ⟨hr,rfl⟩

theorem simpleFold_next (hr : r < limit) (hb : b < limit) (h : u.fold b = u.fold r) (hne : b ≠ r) :
    behind r (u.simpleFold r) ≤ behind r b := by
  rw [Folding.simpleFold,if_neg (Nat.not_le.mpr hr)]
  cases hlater : (List.range' (r + 1) (limit - (r + 1))).find? fun x => decide (u.fold x = u.fold r) with
  | some x =>
    obtain ⟨-,hmem,hleast⟩ := List.find?_range'_eq_some.mp hlater
    have hmem := List.mem_range'_1.mp hmem
    have hbefore := hleast b
    simp only [behind]
    rw [if_pos (by omega)]
    split
    · rename_i hlt
      by_contra hpast
      have hno := hbefore (by omega) (by omega)
      simp [h] at hno
    · omega
  | none =>
    have hnone := List.find?_eq_none.mp hlater b
    have hlt : b < r := by
      by_contra hge
      have hno := hnone (List.mem_range'_1.mpr (by omega))
      simp [h] at hno
    cases hfirst : (List.range limit).find? fun x => decide (u.fold x = u.fold r) with
    | some x =>
      obtain ⟨-,hmem,hleast⟩ := List.find?_range_eq_some.mp hfirst
      have hle : x ≤ b := by
        by_contra hgt
        have hno := hleast b (by omega)
        simp [h] at hno
      simp only [Option.getD_some,behind]
      rw [if_neg (by omega),if_neg (by omega)]
      omega
    | none =>
      have hno := List.find?_eq_none.mp hfirst b (List.mem_range.mpr hb)
      simp [h] at hno

theorem foldLoop_class {fuel : Nat} (hr : r < limit) (hclass : u.fold r = u.fold a)
    (h : u.foldLoop a b fuel r = true) : b < limit ∧ u.fold b = u.fold a := by
  induction fuel generalizing r with
  | zero => cases h
  | succ fuel ih =>
    rw [Folding.foldLoop] at h
    split at h
    · cases h
    · split at h
      · rename_i hrb
        subst hrb
        exact ⟨hr,hclass⟩
      · obtain ⟨hlt,hfold⟩ := simpleFold_class u hr
        exact ih hlt (hfold.trans hclass) h

theorem foldLoop_reaches (ha : a < limit) (hb : b < limit) (hne : b ≠ a) (h : u.fold b = u.fold a)
    {fuel : Nat} (hr : r < limit) (hclass : u.fold r = u.fold a) (hle : behind a r ≤ behind a b)
    (hfuel : behind a b < behind a r + fuel) : u.foldLoop a b fuel r = true := by
  induction fuel generalizing r with
  | zero => omega
  | succ fuel ih =>
    rw [Folding.foldLoop]
    split
    · rename_i hra
      subst hra
      unfold behind at hle
      split at hle <;> split at hle <;> omega
    · split
      · rfl
      · rename_i hrb
        obtain ⟨hlt,hfold⟩ := simpleFold_class u hr
        have hnext := simpleFold_next u hr hb (h.trans hclass.symm) (Ne.symm hrb)
        obtain ⟨hlater,hbefore⟩ := behind_between ha hr hlt hb hle hnext hrb
        exact ih hlt (hfold.trans hclass) hbefore (by omega)

def Folding.Same (u : Folding) (a b : Nat) : Prop := a = b ∨ a < limit ∧ b < limit ∧ u.fold a = u.fold b

theorem foldEq_iff : u.foldEq a b = true ↔ u.Same a b := by
  rw [Folding.foldEq,Folding.Same]
  by_cases hab : a = b
  · simp [hab]
  · rw [if_neg hab]
    split
    · rename_i hascii
      have hlimit : 128 ≤ limit := by decide
      rw [beq_iff_eq,← u.ascii a b hascii.1 hascii.2]
      constructor
      · intro h
        exact .inr ⟨by omega,by omega,h⟩
      · intro h
        exact (h.resolve_left hab).2.2
    · by_cases ha : a < limit
      · obtain ⟨hlt,hfold⟩ := simpleFold_class u ha
        constructor
        · intro h
          obtain ⟨hb,hsame⟩ := foldLoop_class u hlt hfold h
          exact .inr ⟨ha,hb,hsame.symm⟩
        · intro h
          obtain ⟨-,hb,hsame⟩ := h.resolve_left hab
          have hnext := simpleFold_next u ha hb hsame.symm (Ne.symm hab)
          apply foldLoop_reaches u ha hb (Ne.symm hab) hsame.symm hlt hfold hnext
          unfold behind
          split <;> omega
      · have hself : u.simpleFold a = a := if_pos (Nat.not_lt.mp ha)
        rw [hself,Folding.foldLoop,if_pos rfl]
        simp [hab,ha]

end folding

section characters

variable {a : List UInt8}

theorem runes_ascii (h : ∀ b ∈ a,b.toNat < 128) : runes a = a.map UInt8.toNat := by
  induction a with
  | nil => simp [runes]
  | cons b a ih =>
    obtain ⟨hb,ha⟩ := List.forall_mem_cons.mp h
    have hbyte : byte (b :: a) 0 = b.toNat := rfl
    have hdecode : decodeRune (b :: a) = (b.toNat,1) := by
      rw [decodeRune,if_neg (List.cons_ne_nil b a),hbyte,if_pos hb]
    rw [runes,dif_neg (List.cons_ne_nil b a),hdecode]
    simp [ih ha]

theorem subject_eq (a : List UInt8) : subject a = runesWTF8 a := by
  rw [subject]
  split
  · rename_i hascii
    have hascii : ∀ b ∈ a,b.toNat < 128 := by simpa [allASCII] using hascii
    have hno : hasHalf a = false := by
      rw [← Bool.not_eq_true,hasHalf_iff]
      rintro ⟨i,hi⟩
      obtain ⟨hlt,hlead⟩ := getElem_of_half hi
      have hsmall := hascii _ (List.getElem_mem hlt)
      rw [hlead] at hsmall
      exact absurd hsmall (by decide)
    rw [runesWTF8,hno,runes_ascii hascii]
    rfl
  · rfl

end characters

def Meets (u : Folding) : Single → Nat → Prop
  | .any,_ => True
  | .escaped r,c => r = c
  | .literal r,c => u.Same r c

section loop

variable (u : Folding) {ps : List CpTok} {ar : List Nat} {csubject : Bool} {i j mark : Nat}
  {star : Option Nat}

theorem eq_iff (t : Single) (c : Nat) : eq u t c = true ↔ Meets u t c := by
  cases t with
  | any => simp [eq,Meets]
  | escaped r => simp [eq,Meets]
  | literal r => simp [eq,Meets,foldEq_iff]

def Left (csubject : Bool) (back : List Nat) : Prop := csubject = true ∧ ∀ c ∈ back,c = 32

def Aligned (ps : List CpTok) (i j : Nat) : Option Nat → Nat → Prop
  | none,_ => True
  | some star,mark => ∃ seg,ps.drop (star + 1) = seg ++ ps.drop j ∧ (∀ p ∈ seg,p ≠ .run) ∧
      i = mark + seg.length

def Later (u : Folding) (ps : List CpTok) (ar : List Nat) (csubject : Bool) : Option Nat → Nat → Prop
  | none,_ => False
  | some star,mark => ∃ k,mark < k ∧ k ≤ ar.length ∧
      Accepts (Meets u) (Left csubject) (ps.drop (star + 1)) (ar.drop k)

theorem aligned_step (h : Aligned ps i j star mark) {t : Single} (ht : ps[j]? = some (.one t)) :
    Aligned ps (i + 1) (j + 1) star mark := by
  cases star with
  | none => trivial
  | some star =>
    obtain ⟨seg,hseg,hones,hi⟩ := h
    obtain ⟨hj,hget⟩ := List.getElem?_eq_some_iff.mp ht
    refine ⟨seg ++ [.one t],?_,?_,?_⟩
    · rw [hseg,List.append_assoc,List.drop_eq_getElem_cons hj,hget]
      rfl
    · intro p hp
      rcases List.mem_append.mp hp with hp | hp
      · exact hones p hp
      · rw [List.mem_singleton.mp hp]
        rintro ⟨⟩
    · rw [hi,List.length_append]
      rfl

theorem later_run (h : Aligned ps i j star mark) (hrun : ps[j]? = some .run)
    (hlater : Later u ps ar csubject star mark) :
    Accepts (Meets u) (Left csubject) (ps.drop j) (ar.drop i) := by
  cases star with
  | none => exact hlater.elim
  | some star =>
    obtain ⟨seg,hseg,hones,rfl⟩ := h
    obtain ⟨k,hk,hle,haccepts⟩ := hlater
    obtain ⟨hj,hget⟩ := List.getElem?_eq_some_iff.mp hrun
    rw [hseg] at haccepts
    obtain ⟨hlen,hrest⟩ := accepts_ones hones haccepts
    rw [List.length_drop] at hlen
    rw [List.drop_drop] at hrest
    rw [List.drop_eq_getElem_cons hj,hget] at hrest ⊢
    apply accepts_run_of_drop (k := k - mark)
    · rw [List.length_drop]
      omega
    · rw [List.drop_drop]
      convert hrest using 2
      omega

theorem not_later (h : Aligned ps i j star mark) (hi : ar.length ≤ i) :
    ¬Later u ps ar csubject star mark := by
  cases star with
  | none => exact id
  | some star =>
    rintro ⟨k,hk,hle,haccepts⟩
    obtain ⟨seg,hseg,hones,rfl⟩ := h
    rw [hseg] at haccepts
    have hlen := (accepts_ones hones haccepts).1
    rw [List.length_drop] at hlen
    omega

theorem later_next {star : Nat} (hmark : mark < ar.length) :
    Later u ps ar csubject (some star) mark ↔
      Accepts (Meets u) (Left csubject) (ps.drop (star + 1)) (ar.drop (mark + 1)) ∨
        Later u ps ar csubject (some star) (mark + 1) := by
  constructor
  · rintro ⟨k,hk,hle,haccepts⟩
    rcases Nat.eq_or_lt_of_le hk with rfl | hk
    · exact .inl haccepts
    · exact .inr ⟨k,hk,hle,haccepts⟩
  · rintro (haccepts | ⟨k,hk,hle,haccepts⟩)
    · exact ⟨mark + 1,Nat.lt_succ_self mark,hmark,haccepts⟩
    · exact ⟨k,Nat.lt_of_succ_lt hk,hle,haccepts⟩

theorem takes_iff {t : Option CpTok} {c : Nat} :
    takes u t c = true ↔ ∃ x,t = some (.one x) ∧ Meets u x c := by
  match t with
  | none => simp [takes]
  | some .run => simp [takes]
  | some (.one x) => simp [takes,eq_iff]

theorem not_accepts (hlt : i < ar.length)
    (hend : ¬(j = ps.length ∧ csubject = true ∧ ((ar.drop i).all fun x => decide (x = 32)) = true))
    (hj : j ≤ ps.length) (htakes : ¬takes u ps[j]? ar[i] = true) (hrun : ¬ps[j]? = some .run) :
    ¬Accepts (Meets u) (Left csubject) (ps.drop j) (ar.drop i) := by
  intro haccepts
  rw [List.drop_eq_getElem_cons hlt] at haccepts
  rcases Nat.eq_or_lt_of_le hj with rfl | hj
  · rw [List.drop_length] at haccepts
    rcases accepts_nil.mp haccepts with hnil | hleft
    · cases hnil
    · rw [← List.drop_eq_getElem_cons hlt] at hleft
      exact hend ⟨rfl,hleft.1,by simpa using hleft.2⟩
  · rw [List.drop_eq_getElem_cons hj] at haccepts
    rw [List.getElem?_eq_getElem hj] at htakes hrun
    cases htoken : ps[j] with
    | run => exact hrun (congrArg some htoken)
    | one t =>
      rw [htoken] at htakes haccepts
      exact htakes ((takes_iff u).mpr ⟨t,rfl,(accepts_one_cons.mp haccepts).1⟩)

theorem cpLoop_iff (hi : i ≤ ar.length) (hj : j ≤ ps.length) (h : Aligned ps i j star mark)
    (hstar : ∀ s,star = some s → s < ps.length) : cpLoop u ps ar csubject i j star mark = true ↔
      Accepts (Meets u) (Left csubject) (ps.drop j) (ar.drop i) ∨ Later u ps ar csubject star mark := by
  induction i,j,star,mark using cpLoop.induct u ps ar csubject with
  | case1 i j star mark hlt hend =>
    rw [cpLoop.eq_def,dif_pos hlt,if_pos hend]
    refine iff_of_true rfl (.inl ?_)
    rw [hend.1,List.drop_length]
    exact accepts_nil.mpr (.inr ⟨hend.2.1,by simpa using hend.2.2⟩)
  | case2 i j star mark hlt hend htakes ih =>
    obtain ⟨t,ht,hmeets⟩ := (takes_iff u).mp htakes
    obtain ⟨hjlt,hget⟩ := List.getElem?_eq_some_iff.mp ht
    rw [cpLoop.eq_def,dif_pos hlt,if_neg hend,if_pos htakes,ih hlt hjlt (aligned_step h ht) hstar,
      List.drop_eq_getElem_cons hlt,List.drop_eq_getElem_cons hjlt,hget,accepts_one_cons]
    simp [hmeets]
  | case3 i j star mark hlt hend htakes hrun ih =>
    obtain ⟨hjlt,hget⟩ := List.getElem?_eq_some_iff.mp hrun
    have haligned : Aligned ps i (j + 1) (some j) i := ⟨[],rfl,by simp,rfl⟩
    have hnew : ∀ s,some j = some s → s < ps.length := by
      rintro s ⟨⟩
      exact hjlt
    have hhere : Accepts (Meets u) (Left csubject) (ps.drop j) (ar.drop i) ↔
        Accepts (Meets u) (Left csubject) (ps.drop (j + 1)) (ar.drop i) ∨
          Later u ps ar csubject (some j) i := by
      rw [List.drop_eq_getElem_cons hjlt,hget,accepts_run]
      constructor
      · rintro ⟨k,hk,haccepts⟩
        rw [List.length_drop] at hk
        rw [List.drop_drop] at haccepts
        rcases Nat.eq_zero_or_pos k with rfl | hpos
        · exact .inl haccepts
        · exact .inr ⟨i + k,by omega,by omega,haccepts⟩
      · rintro (haccepts | ⟨k,hk,hle,haccepts⟩)
        · exact ⟨0,Nat.zero_le _,haccepts⟩
        · refine ⟨k - i,by rw [List.length_drop]; omega,?_⟩
          rw [List.drop_drop,Nat.add_sub_cancel' hk.le]
          exact haccepts
    rw [cpLoop.eq_def,dif_pos hlt,if_neg hend,if_neg htakes,dif_pos hrun,ih hi hjlt haligned hnew,← hhere]
    exact ⟨.inl,fun h' => h'.elim id (later_run u h hrun)⟩
  | case4 i j mark hlt hend htakes hrun star ih =>
    have hno := not_accepts u hlt hend hj htakes hrun
    obtain ⟨seg,-,-,hsum⟩ := id h
    have hmark : mark < ar.length := by omega
    have haligned : Aligned ps (mark + 1) (star + 1) (some star) (mark + 1) := ⟨[],rfl,by simp,rfl⟩
    rw [cpLoop.eq_def,dif_pos hlt,if_neg hend,if_neg htakes,dif_neg hrun]
    simp only
    rw [ih hmark (hstar star rfl) haligned hstar,later_next u hmark]
    simp [hno]
  | case5 i j mark hlt hend htakes hrun =>
    have hno := not_accepts u hlt hend hj htakes hrun
    rw [cpLoop.eq_def,dif_pos hlt,if_neg hend,if_neg htakes,dif_neg hrun]
    simp [hno,Later]
  | case6 i j star mark hge =>
    have hlater := @not_later u _ _ csubject _ _ _ _ h (Nat.not_lt.mp hge)
    rw [cpLoop.eq_def,dif_neg hge,List.drop_of_length_le (Nat.not_lt.mp hge),accepts_empty]
    simp [hlater,List.dropWhile_eq_nil_iff]

theorem cp_iff (a p : List UInt8) (cpat csubject : Bool) : cp u a p cpat csubject = true ↔
    Matches (Meets u) (pattern p cpat) (runesWTF8 a) ∨
      csubject = true ∧ ∃ front back,runesWTF8 a = front ++ back ∧
        Matches (Meets u) (pattern p cpat) front ∧ ∀ c ∈ back,c = 32 := by
  rw [cp,cpLoop_iff u (Nat.zero_le _) (Nat.zero_le _) (show Aligned (pattern p cpat) 0 0 none 0 from trivial)
    (fun s hs => by cases hs),subject_eq]
  simp only [List.drop_zero,Later,or_false]
  constructor
  · rintro ⟨front,back,heq,hmatch,hback⟩
    rcases hback with rfl | ⟨hsubject,hblank⟩
    · rw [List.append_nil] at heq
      exact .inl (heq ▸ hmatch)
    · exact .inr ⟨hsubject,front,back,heq,hmatch,hblank⟩
  · rintro (hmatch | ⟨hsubject,front,back,heq,hmatch,hblank⟩)
    · exact ⟨_,[],(List.append_nil _).symm,hmatch,.inl rfl⟩
    · exact ⟨front,back,heq,hmatch,.inr ⟨hsubject,hblank⟩⟩

end loop

theorem cp_iff_letters : ∃ u : Folding,cp u [65] [97] false false = true ↔
    Matches (Meets u) (pattern [97] false) (runesWTF8 [65]) ∨
      false = true ∧ ∃ front back,runesWTF8 [65] = front ++ back ∧
        Matches (Meets u) (pattern [97] false) front ∧ ∀ c ∈ back,c = 32 :=
  ⟨⟨fun a => if 65 ≤ a ∧ a ≤ 90 then a + 32 else a,fun _ _ _ _ => Iff.rfl⟩,cp_iff _ [65] [97] false false⟩

end OpenSteamgate.Text
