import Mathlib.Tactic.SplitIfs
import Mathlib.Data.List.Basic
import Mathlib.Data.Nat.Notation

-- the texts of the interchange format, each with the value that it stands for
namespace JsonText

inductive Value
  | null
  | bool (b : Bool)
  | number (text : List Char)
  | string (text : List Char)
  | array (elements : List Value)
  | object (members : List (List Char × Value))

def blanks : List Char := [' ','\t','\n','\r']

def Blank (text : List Char) : Prop := ∀ c ∈ text,c ∈ blanks

def simpleEscape (c : Char) : Option Char :=
  if c = '"' then some '"' else if c = '\\' then some '\\' else if c = '/' then some '/'
  else if c = 'b' then some (Char.ofNat 8) else if c = 'f' then some (Char.ofNat 12)
  else if c = 'n' then some '\n' else if c = 'r' then some '\r' else if c = 't' then some '\t' else none

def hexDigit (c : Char) : Option ℕ :=
  if '0' ≤ c ∧ c ≤ '9' then some (c.toNat - 48)
  else if 'A' ≤ c ∧ c ≤ 'F' then some (c.toNat - 55)
  else if 'a' ≤ c ∧ c ≤ 'f' then some (c.toNat - 87)
  else none

def codeUnit (a b c d : Char) : Option ℕ := do
  let a ← hexDigit a
  let b ← hexDigit b
  let c ← hexDigit c
  let d ← hexDigit d
  some (((a * 16 + b) * 16 + c) * 16 + d)

def plain (c : Char) : Bool := ' ' ≤ c && c ≠ '"' && c ≠ '\\'

inductive Body : List Char → List Char → Prop
  | nil : Body [] []
  | plain {raw text : List Char} (c : Char) : plain c = true → Body raw text → Body (c :: raw) (c :: text)
  | escape {raw text : List Char} (e c : Char) : simpleEscape e = some c → Body raw text →
      Body ('\\' :: e :: raw) (c :: text)
  | unit {raw text : List Char} (a b c d : Char) (n : ℕ) : codeUnit a b c d = some n →
      n < 0xd800 ∨ 0xdfff < n → Body raw text → Body ('\\' :: 'u' :: a :: b :: c :: d :: raw) (Char.ofNat n :: text)
  | pair {raw text : List Char} (a b c d a' b' c' d' : Char) (high low : ℕ) :
      codeUnit a b c d = some high → codeUnit a' b' c' d' = some low → 0xd800 ≤ high → high < 0xdc00 →
      0xdc00 ≤ low → low < 0xe000 → Body raw text →
      Body ('\\' :: 'u' :: a :: b :: c :: d :: '\\' :: 'u' :: a' :: b' :: c' :: d' :: raw)
        (Char.ofNat (0x10000 + (high - 0xd800) * 0x400 + (low - 0xdc00)) :: text)

def Digits (text : List Char) : Prop := text ≠ [] ∧ ∀ c ∈ text,c.isDigit = true

def Number (text : List Char) : Prop := ∃ sign whole fraction exponent : List Char,
  text = sign ++ whole ++ fraction ++ exponent ∧ (sign = [] ∨ sign = ['-']) ∧
  Digits whole ∧ (whole.head? = some '0' → whole = ['0']) ∧
  (fraction = [] ∨ ∃ ds,fraction = '.' :: ds ∧ Digits ds) ∧
  (exponent = [] ∨ ∃ e s ds,exponent = e :: (s ++ ds) ∧ (e = 'e' ∨ e = 'E') ∧
    (s = [] ∨ s = ['+'] ∨ s = ['-']) ∧ Digits ds)

mutual

inductive Reads : List Char → Value → Prop
  | null : Reads "null".toList .null
  | yes : Reads "true".toList (.bool true)
  | no : Reads "false".toList (.bool false)
  | number {text : List Char} : Number text → Reads text (.number text)
  | string {raw text : List Char} : Body raw text → Reads ('"' :: (raw ++ ['"'])) (.string text)
  | nothing {inner : List Char} : Blank inner → Reads ('[' :: (inner ++ [']'])) (.array [])
  | array {inner : List Char} {vs : List Value} : Elements inner vs → Reads ('[' :: (inner ++ [']'])) (.array vs)
  | empty {inner : List Char} : Blank inner → Reads ('{' :: (inner ++ ['}'])) (.object [])
  | object {inner : List Char} {ms : List (List Char × Value)} : Members inner ms →
      Reads ('{' :: (inner ++ ['}'])) (.object ms)

inductive Elements : List Char → List Value → Prop
  | last {a t b : List Char} {v : Value} : Blank a → Reads t v → Blank b → Elements (a ++ t ++ b) [v]
  | cons {a t b rest : List Char} {v : Value} {vs : List Value} : Blank a → Reads t v → Blank b →
      Elements rest vs → Elements (a ++ t ++ b ++ ',' :: rest) (v :: vs)

inductive Members : List Char → List (List Char × Value) → Prop
  | last {a raw name b c t d : List Char} {v : Value} : Blank a → Body raw name → Blank b → Blank c →
      Reads t v → Blank d → Members (a ++ '"' :: raw ++ '"' :: b ++ ':' :: c ++ t ++ d) [(name,v)]
  | cons {a raw name b c t d rest : List Char} {v : Value} {ms : List (List Char × Value)} :
      Blank a → Body raw name → Blank b → Blank c → Reads t v → Blank d → Members rest ms →
      Members (a ++ '"' :: raw ++ '"' :: b ++ ':' :: c ++ t ++ d ++ ',' :: rest) ((name,v) :: ms)

end

def Document (text : List Char) (v : Value) : Prop :=
  ∃ a t b,text = a ++ t ++ b ∧ Blank a ∧ Reads t v ∧ Blank b

section texts

variable {raw text name rest t : List Char} {v : Value} {vs : List Value}
  {ms : List (List Char × Value)}

theorem blank_nil : Blank [] := List.forall_mem_nil _

theorem document_of (h : Reads t v) : Document t v :=
  ⟨[],t,[],(List.append_nil t).symm,blank_nil,h,blank_nil⟩

theorem body_self (h : ∀ c ∈ text,plain c = true) : Body text text := by
  induction text with
  | nil => exact .nil
  | cons c cs ih =>
    exact .plain c (h c (List.mem_cons_self ..)) (ih fun d hd => h d (List.mem_cons_of_mem _ hd))

theorem body_literal (h : text.all plain = true) : Body text text := body_self (List.all_eq_true.mp h)

theorem body_append {raw' text' : List Char} (h : Body raw text) (h' : Body raw' text') :
    Body (raw ++ raw') (text ++ text') := by
  induction h with
  | nil => exact h'
  | plain c hc _ ih => exact .plain c hc ih
  | escape e c hc _ ih => exact .escape e c hc ih
  | unit a b c d n hunit hn _ ih => exact .unit a b c d n hunit hn ih
  | pair a b c d a' b' c' d' high low hh hl h1 h2 h3 h4 _ ih =>
    exact .pair a b c d a' b' c' d' high low hh hl h1 h2 h3 h4 ih

def member (raw t : List Char) : List Char := '"' :: (raw ++ '"' :: ':' :: t)

theorem members_one (h : Body raw name) (hv : Document t v) : Members (member raw t) [(name,v)] := by
  obtain ⟨c,t,d,rfl,hc,hv,hd⟩ := hv
  have hlast := Members.last blank_nil h blank_nil hc hv hd
  simpa [member] using hlast

theorem members_more (h : Body raw name) (hv : Document t v) (hrest : Members rest ms) :
    Members (member raw t ++ ',' :: rest) ((name,v) :: ms) := by
  obtain ⟨c,t,d,rfl,hc,hv,hd⟩ := hv
  have hcons := Members.cons blank_nil h blank_nil hc hv hd hrest
  simpa [member] using hcons

theorem members_flat {xs : List (List Char × List Char × Value)} (h : Body raw name) (hv : Document t v)
    (hall : ∀ x ∈ xs,Body x.1 x.1 ∧ Document x.2.1 x.2.2) :
    Members (member raw t ++ xs.flatMap fun x => ',' :: member x.1 x.2.1)
      ((name,v) :: xs.map fun x => (x.1,x.2.2)) := by
  induction xs generalizing raw name t v with
  | nil =>
    rw [List.flatMap_nil,List.append_nil]
    exact members_one h hv
  | cons x xs ih =>
    obtain ⟨hname,hvalue⟩ := hall x (List.mem_cons_self ..)
    exact members_more h hv (ih hname hvalue fun y hy => hall y (List.mem_cons_of_mem _ hy))

theorem elements_flat {xs : List (List Char × Value)} (hv : Reads t v)
    (hall : ∀ x ∈ xs,Reads x.1 x.2) :
    Elements (t ++ xs.flatMap fun x => ',' :: x.1) (v :: xs.map (·.2)) := by
  induction xs generalizing t v with
  | nil =>
    have hlast := Elements.last blank_nil hv blank_nil
    simpa using hlast
  | cons x xs ih =>
    have hcons := Elements.cons blank_nil hv blank_nil
      (ih (hall x (List.mem_cons_self ..)) fun y hy => hall y (List.mem_cons_of_mem _ hy))
    simpa using hcons

end texts

section characters

def Ordinary (text : List Char) : Prop := ∀ c ∈ text,' ' ≤ c ∨ c ∈ blanks

variable {raw text t : List Char} {v : Value}

theorem ordinary_append {a b : List Char} : Ordinary (a ++ b) ↔ Ordinary a ∧ Ordinary b :=
  List.forall_mem_append

theorem ordinary_cons {c : Char} : Ordinary (c :: t) ↔ (' ' ≤ c ∨ c ∈ blanks) ∧ Ordinary t :=
  List.forall_mem_cons

theorem ordinary_of (h : t.all (' ' ≤ ·) = true) : Ordinary t := fun c hc =>
  .inl (of_decide_eq_true (List.all_eq_true.mp h c hc))

theorem ordinary_blank (h : Blank t) : Ordinary t := fun c hc => .inr (h c hc)

theorem ordinary_digits (h : Digits t) : Ordinary t := by
  intro c hc
  have hdigit := h.2 c hc
  rw [Char.isDigit,Bool.and_eq_true,decide_eq_true_iff] at hdigit
  exact .inl (Char.le_def.mpr (UInt32.le_trans (by decide) hdigit.1))

theorem ordinary_number (h : Number t) : Ordinary t := by
  obtain ⟨sign,whole,fraction,exponent,rfl,hsign,hwhole,-,hfraction,hexponent⟩ := h
  refine (ordinary_append).mpr ⟨(ordinary_append).mpr ⟨(ordinary_append).mpr ⟨?_,ordinary_digits hwhole⟩,?_⟩,?_⟩
  · rcases hsign with rfl | rfl
    · exact List.forall_mem_nil _
    · exact ordinary_of rfl
  · rcases hfraction with rfl | ⟨ds,rfl,hds⟩
    · exact List.forall_mem_nil _
    · exact (ordinary_cons).mpr ⟨by decide,ordinary_digits hds⟩
  · rcases hexponent with rfl | ⟨e,s,ds,rfl,he,hs,hds⟩
    · exact List.forall_mem_nil _
    · refine (ordinary_cons).mpr ⟨?_,(ordinary_append).mpr ⟨?_,ordinary_digits hds⟩⟩
      · rcases he with rfl | rfl <;> decide
      · rcases hs with rfl | rfl | rfl <;> exact ordinary_of rfl

theorem hexDigit_ordinary {c : Char} {n : ℕ} (h : hexDigit c = some n) : ' ' ≤ c := by
  rw [hexDigit] at h
  split at h
  · rename_i hc
    exact Char.le_trans (by decide) hc.1
  · split at h
    · rename_i hc
      exact Char.le_trans (by decide) hc.1
    · split at h
      · rename_i hc
        exact Char.le_trans (by decide) hc.1
      · cases h

theorem codeUnit_ordinary {a b c d : Char} {n : ℕ} (h : codeUnit a b c d = some n) :
    ' ' ≤ a ∧ ' ' ≤ b ∧ ' ' ≤ c ∧ ' ' ≤ d := by
  obtain ⟨_,ha,h⟩ := Option.bind_eq_some_iff.mp h
  obtain ⟨_,hb,h⟩ := Option.bind_eq_some_iff.mp h
  obtain ⟨_,hc,h⟩ := Option.bind_eq_some_iff.mp h
  obtain ⟨_,hd,-⟩ := Option.bind_eq_some_iff.mp h
  exact ⟨hexDigit_ordinary ha,hexDigit_ordinary hb,hexDigit_ordinary hc,hexDigit_ordinary hd⟩

theorem simpleEscape_ordinary {e c : Char} (h : simpleEscape e = some c) : ' ' ≤ e := by
  unfold simpleEscape at h
  split_ifs at h with h1 h2 h3 h4 h5 h6 h7 h8 <;> subst_vars <;> decide

theorem ordinary_body (h : Body raw text) : Ordinary raw := by
  induction h with
  | nil => exact List.forall_mem_nil _
  | plain c hc _ ih =>
    rw [plain,Bool.and_eq_true,Bool.and_eq_true] at hc
    exact (ordinary_cons).mpr ⟨.inl (of_decide_eq_true hc.1.1),ih⟩
  | escape e c he _ ih =>
    exact (ordinary_cons).mpr ⟨by decide,(ordinary_cons).mpr ⟨.inl (simpleEscape_ordinary he),ih⟩⟩
  | unit a b c d n hunit _ _ ih =>
    obtain ⟨ha,hb,hc,hd⟩ := codeUnit_ordinary hunit
    simp only [ordinary_cons]
    exact ⟨by decide,by decide,.inl ha,.inl hb,.inl hc,.inl hd,ih⟩
  | pair a b c d a' b' c' d' high low hhigh hlow _ _ _ _ _ ih =>
    obtain ⟨ha,hb,hc,hd⟩ := codeUnit_ordinary hhigh
    obtain ⟨ha',hb',hc',hd'⟩ := codeUnit_ordinary hlow
    simp only [ordinary_cons]
    exact ⟨by decide,by decide,.inl ha,.inl hb,.inl hc,.inl hd,by decide,by decide,.inl ha',.inl hb',
      .inl hc',.inl hd',ih⟩

theorem ordinary_around {l r : Char} (hl : ' ' ≤ l) (hr : ' ' ≤ r) (h : Ordinary t) :
    Ordinary (l :: (t ++ [r])) :=
  (ordinary_cons).mpr ⟨.inl hl,(ordinary_append).mpr ⟨h,(ordinary_cons).mpr ⟨.inl hr,List.forall_mem_nil _⟩⟩⟩

theorem reads_ordinary (h : Reads t v) : Ordinary t := by
  refine @Reads.rec (fun t _ _ => Ordinary t) (fun t _ _ => Ordinary t) (fun t _ _ => Ordinary t)
    ?_ ?_ ?_ ?_ ?_ ?_ ?_ ?_ ?_ ?_ ?_ ?_ ?_ t v h
  · exact ordinary_of rfl
  · exact ordinary_of rfl
  · exact ordinary_of rfl
  · exact fun hnumber => ordinary_number hnumber
  · exact fun hbody => ordinary_around (by decide) (by decide) (ordinary_body hbody)
  · exact fun hblank => ordinary_around (by decide) (by decide) (ordinary_blank hblank)
  · exact fun _ ih => ordinary_around (by decide) (by decide) ih
  · exact fun hblank => ordinary_around (by decide) (by decide) (ordinary_blank hblank)
  · exact fun _ ih => ordinary_around (by decide) (by decide) ih
  · exact fun ha _ hb ih =>
      (ordinary_append).mpr ⟨(ordinary_append).mpr ⟨ordinary_blank ha,ih⟩,ordinary_blank hb⟩
  · intro a t b rest v vs ha _ hb _ ih ihrest
    simp only [ordinary_append,ordinary_cons]
    exact ⟨⟨⟨ordinary_blank ha,ih⟩,ordinary_blank hb⟩,by decide,ihrest⟩
  · intro a raw name b c t d v ha hbody hb hc _ hd ih
    simp only [ordinary_append,ordinary_cons]
    exact ⟨⟨⟨⟨⟨ordinary_blank ha,by decide,ordinary_body hbody⟩,by decide,ordinary_blank hb⟩,by decide,
      ordinary_blank hc⟩,ih⟩,ordinary_blank hd⟩
  · intro a raw name b c t d rest v ms ha hbody hb hc _ hd _ ih ihrest
    simp only [ordinary_append,ordinary_cons]
    exact ⟨⟨⟨⟨⟨⟨ordinary_blank ha,by decide,ordinary_body hbody⟩,by decide,ordinary_blank hb⟩,by decide,
      ordinary_blank hc⟩,ih⟩,ordinary_blank hd⟩,by decide,ihrest⟩

theorem document_ordinary (h : Document t v) : Ordinary t := by
  obtain ⟨a,t,b,rfl,ha,ht,hb⟩ := h
  exact (ordinary_append).mpr ⟨(ordinary_append).mpr ⟨ordinary_blank ha,reads_ordinary ht⟩,ordinary_blank hb⟩

end characters

section scans

mutual

def strings : Value → List (List Char)
  | .null | .bool _ | .number _ => []
  | .string text => [text]
  | .array vs => stringsOf vs
  | .object ms => stringsUnder ms

def stringsOf : List Value → List (List Char)
  | [] => []
  | v :: vs => strings v ++ stringsOf vs

def stringsUnder : List (List Char × Value) → List (List Char)
  | [] => []
  | m :: ms => m.1 :: (strings m.2 ++ stringsUnder ms)

end

inductive Scans : List Char → List (List Char) → Prop
  | nil : Scans [] []
  | skip {t : List Char} {ss : List (List Char)} (c : Char) : c ≠ '"' → Scans t ss → Scans (c :: t) ss
  | string {raw s t : List Char} {ss : List (List Char)} : Body raw s → Scans t ss →
      Scans ('"' :: (raw ++ '"' :: t)) (s :: ss)

def Transparent (t : List Char) (known : List (List Char)) : Prop := ∀ rest ss,Scans (t ++ rest) ss ↔
  ∃ ss',ss = known ++ ss' ∧ Scans rest ss'

variable {raw raw' s s' t rest rest' : List Char} {ss ss' : List (List Char)} {v : Value}

theorem scans_skip {c : Char} (hc : c ≠ '"') : Scans (c :: t) ss ↔ Scans t ss := by
  constructor
  · intro h
    generalize htext : c :: t = text at h
    cases h with
    | nil => cases htext
    | skip d _ h =>
      obtain ⟨-,rfl⟩ := List.cons.inj htext
      exact h
    | string => exact absurd (List.cons.inj htext).1 hc
  · exact .skip c hc

theorem scans_quote (h : Scans ('"' :: t) ss) : ∃ raw s rest ss',t = raw ++ '"' :: rest ∧ Body raw s ∧
    ss = s :: ss' ∧ Scans rest ss' := by
  generalize htext : '"' :: t = text at h
  cases h with
  | nil => cases htext
  | skip d hd => exact absurd (List.cons.inj htext).1.symm hd
  | @string raw s rest ss' hbody hrest => exact ⟨raw,s,rest,ss',(List.cons.inj htext).2,hbody,rfl,hrest⟩

theorem body_unique (h : Body raw s) (h' : Body raw' s') (htext : raw ++ '"' :: rest = raw' ++ '"' :: rest') :
    raw = raw' ∧ s = s' ∧ rest = rest' := by
  have hplain : ∀ {c : Char},plain c = true → c ≠ '"' ∧ c ≠ '\\' := by
    rintro c hc
    rw [plain,Bool.and_eq_true,Bool.and_eq_true] at hc
    exact ⟨of_decide_eq_true hc.1.2,of_decide_eq_true hc.2⟩
  have hletter : ∀ {c : Char},simpleEscape 'u' ≠ some c := by
    intro c
    have hnone : simpleEscape 'u' = none := by decide
    rw [hnone]
    rintro ⟨⟩
  induction h generalizing raw' s' with
  | nil =>
    cases h' with
    | nil => exact ⟨rfl,rfl,(List.cons.inj htext).2⟩
    | plain c hc => exact absurd (List.cons.inj htext).1.symm (hplain hc).1
    | escape | unit | pair => exact absurd (List.cons.inj htext).1 (by decide)
  | plain c hc _ ih =>
    cases h' with
    | nil => exact absurd (List.cons.inj htext).1 (hplain hc).1
    | plain d hd h' =>
      obtain ⟨rfl,htail⟩ := List.cons.inj htext
      obtain ⟨rfl,rfl,hrest⟩ := ih h' htail
      exact ⟨rfl,rfl,hrest⟩
    | escape | unit | pair => exact absurd (List.cons.inj htext).1 (hplain hc).2
  | escape e c he _ ih =>
    have hu : e ≠ 'u' := by
      rintro rfl
      exact hletter he
    cases h' with
    | nil => exact absurd (List.cons.inj htext).1 (by decide)
    | plain d hd => exact absurd (List.cons.inj htext).1.symm (hplain hd).2
    | escape e' c' he' h' =>
      obtain ⟨rfl,htail⟩ := List.cons.inj (List.cons.inj htext).2
      obtain ⟨rfl,rfl,hrest⟩ := ih h' htail
      rw [he] at he'
      rw [Option.some.inj he']
      exact ⟨rfl,rfl,hrest⟩
    | unit | pair => exact absurd (List.cons.inj (List.cons.inj htext).2).1 hu
  | unit a b c d n hunit hn _ ih =>
    cases h' with
    | nil => exact absurd (List.cons.inj htext).1 (by decide)
    | plain e he => exact absurd (List.cons.inj htext).1.symm (hplain he).2
    | escape e c he =>
      obtain ⟨rfl,-⟩ := List.cons.inj (List.cons.inj htext).2
      exact (hletter he).elim
    | unit a' b' c' d' n' hunit' hn' h' =>
      simp only [List.cons_append,List.cons.injEq,true_and] at htext
      obtain ⟨rfl,rfl,rfl,rfl,htail⟩ := htext
      obtain ⟨rfl,rfl,hrest⟩ := ih h' htail
      rw [hunit] at hunit'
      rw [Option.some.inj hunit']
      exact ⟨rfl,rfl,hrest⟩
    | pair a' b' c' d' _ _ _ _ high low hhigh _ h1 h2 =>
      simp only [List.cons_append,List.cons.injEq,true_and] at htext
      obtain ⟨rfl,rfl,rfl,rfl,-⟩ := htext
      rw [hunit] at hhigh
      obtain rfl := Option.some.inj hhigh
      omega
  | pair a b c d a' b' c' d' high low hhigh hlow h1 h2 h3 h4 _ ih =>
    cases h' with
    | nil => exact absurd (List.cons.inj htext).1 (by decide)
    | plain e he => exact absurd (List.cons.inj htext).1.symm (hplain he).2
    | escape e c he =>
      obtain ⟨rfl,-⟩ := List.cons.inj (List.cons.inj htext).2
      exact (hletter he).elim
    | unit _ _ _ _ n hunit hn =>
      simp only [List.cons_append,List.cons.injEq,true_and] at htext
      obtain ⟨rfl,rfl,rfl,rfl,-⟩ := htext
      rw [hhigh] at hunit
      obtain rfl := Option.some.inj hunit
      omega
    | pair _ _ _ _ _ _ _ _ high' low' hhigh' hlow' _ _ _ _ h' =>
      simp only [List.cons_append,List.cons.injEq,true_and] at htext
      obtain ⟨rfl,rfl,rfl,rfl,rfl,rfl,rfl,rfl,htail⟩ := htext
      obtain ⟨rfl,rfl,hrest⟩ := ih h' htail
      rw [hhigh] at hhigh'
      rw [hlow] at hlow'
      rw [Option.some.inj hhigh',Option.some.inj hlow']
      exact ⟨rfl,rfl,hrest⟩

theorem transparent_nil : Transparent [] [] := fun _ ss =>
  ⟨fun h => ⟨ss,rfl,h⟩,fun ⟨_,heq,h⟩ => heq ▸ h⟩

theorem transparent_append {t' : List Char} (h : Transparent t ss) (h' : Transparent t' ss') :
    Transparent (t ++ t') (ss ++ ss') := by
  intro rest all
  rw [List.append_assoc,h]
  constructor
  · rintro ⟨more,rfl,hmore⟩
    obtain ⟨last,rfl,hlast⟩ := (h' _ _).mp hmore
    exact ⟨last,(List.append_assoc ..).symm,hlast⟩
  · rintro ⟨last,rfl,hlast⟩
    exact ⟨ss' ++ last,List.append_assoc ..,(h' _ _).mpr ⟨last,rfl,hlast⟩⟩

theorem transparent_cons {c : Char} (hc : c ≠ '"') (h : Transparent t ss) : Transparent (c :: t) ss := by
  intro rest all
  rw [List.cons_append,scans_skip hc,h]

theorem transparent_quiet (h : '"' ∉ t) : Transparent t [] := by
  induction t with
  | nil => exact transparent_nil
  | cons c t ih =>
    exact transparent_cons (Ne.symm (List.ne_of_not_mem_cons h)) (ih (List.not_mem_of_not_mem_cons h))

theorem transparent_string (h : Body raw s) : Transparent ('"' :: (raw ++ ['"'])) [s] := by
  intro rest all
  have htext : '"' :: (raw ++ ['"']) ++ rest = '"' :: (raw ++ '"' :: rest) := by simp
  rw [htext]
  constructor
  · intro hscans
    obtain ⟨raw',s',rest',ss',heq,hbody,rfl,hrest⟩ := scans_quote hscans
    obtain ⟨rfl,rfl,rfl⟩ := body_unique h hbody heq
    exact ⟨ss',rfl,hrest⟩
  · rintro ⟨ss',rfl,hrest⟩
    exact .string h hrest

theorem blank_quiet (h : Blank t) : Transparent t [] :=
  transparent_quiet fun hc => absurd (h _ hc) (by decide)

theorem number_quiet (h : Number t) : '"' ∉ t := by
  have hdigits : ∀ {ds : List Char},Digits ds → '"' ∉ ds := fun hds hc => absurd (hds.2 _ hc) (by decide)
  obtain ⟨sign,whole,fraction,exponent,rfl,hsign,hwhole,-,hfraction,hexponent⟩ := h
  simp only [List.mem_append]
  rintro (((hc | hc) | hc) | hc)
  · rcases hsign with rfl | rfl
    · cases hc
    · exact absurd hc (by decide)
  · exact hdigits hwhole hc
  · rcases hfraction with rfl | ⟨ds,rfl,hds⟩
    · cases hc
    · exact hdigits hds ((List.mem_cons.mp hc).resolve_left (by decide))
  · rcases hexponent with rfl | ⟨e,sign,ds,rfl,he,hsign,hds⟩
    · cases hc
    · rcases List.mem_cons.mp hc with rfl | hc
      · exact absurd he (by decide)
      · rcases List.mem_append.mp hc with hc | hc
        · rcases hsign with rfl | rfl | rfl
          · cases hc
          · exact absurd hc (by decide)
          · exact absurd hc (by decide)
        · exact hdigits hds hc

theorem transparent_around {l r : Char} (hl : l ≠ '"') (hr : r ≠ '"') (h : Transparent t ss) :
    Transparent (l :: (t ++ [r])) ss := by
  have happend := transparent_append h (transparent_cons hr transparent_nil)
  rw [List.append_nil] at happend
  exact transparent_cons hl happend

theorem transparent_member {name b c d : List Char} (hbody : Body raw name) (hb : Blank b) (hc : Blank c)
    (ht : Transparent t ss) (hd : Blank d) :
    Transparent ('"' :: raw ++ '"' :: b ++ ':' :: c ++ t ++ d) (name :: ss) := by
  have hname := transparent_append (transparent_string hbody) (blank_quiet hb)
  have hcolon := transparent_append hname (transparent_cons (c := ':') (by decide) (blank_quiet hc))
  have hvalue := transparent_append (transparent_append hcolon ht) (blank_quiet hd)
  simpa using hvalue

theorem reads_transparent (h : Reads t v) : Transparent t (strings v) := by
  refine @Reads.rec (fun t v _ => Transparent t (strings v)) (fun t vs _ => Transparent t (stringsOf vs))
    (fun t ms _ => Transparent t (stringsUnder ms)) ?_ ?_ ?_ ?_ ?_ ?_ ?_ ?_ ?_ ?_ ?_ ?_ ?_ t v h
  · exact transparent_quiet (by decide)
  · exact transparent_quiet (by decide)
  · exact transparent_quiet (by decide)
  · exact fun hnumber => transparent_quiet (number_quiet hnumber)
  · exact fun hbody => transparent_string hbody
  · exact fun hblank => transparent_around (by decide) (by decide) (blank_quiet hblank)
  · exact fun _ ih => transparent_around (by decide) (by decide) ih
  · exact fun hblank => transparent_around (by decide) (by decide) (blank_quiet hblank)
  · exact fun _ ih => transparent_around (by decide) (by decide) ih
  · intro a t b v ha _ hb ih
    have happend := transparent_append (transparent_append (blank_quiet ha) ih) (blank_quiet hb)
    simpa [stringsOf] using happend
  · intro a t b rest v vs ha _ hb _ ih ihrest
    have happend := transparent_append (transparent_append (blank_quiet ha) ih) (blank_quiet hb)
    have hall := transparent_append happend (transparent_cons (c := ',') (by decide) ihrest)
    simpa [stringsOf] using hall
  · intro a raw name b c t d v ha hbody hb hc _ hd ih
    have happend := transparent_append (blank_quiet ha) (transparent_member hbody hb hc ih hd)
    simpa [stringsUnder] using happend
  · intro a raw name b c t d rest v ms ha hbody hb hc _ hd _ ih ihrest
    have happend := transparent_append (blank_quiet ha) (transparent_member hbody hb hc ih hd)
    have hall := transparent_append happend (transparent_cons (c := ',') (by decide) ihrest)
    simpa [stringsUnder] using hall

theorem document_transparent (h : Document t v) : Transparent t (strings v) := by
  obtain ⟨a,t,b,rfl,ha,ht,hb⟩ := h
  have happend := transparent_append (transparent_append (blank_quiet ha) (reads_transparent ht))
    (blank_quiet hb)
  simpa using happend

theorem document_scans (h : Document t v) : Scans t (strings v) := by
  have hall := (document_transparent h [] (strings v)).mpr ⟨[],(List.append_nil _).symm,.nil⟩
  rwa [List.append_nil] at hall

theorem body_length (h : Body raw s) : s.length ≤ raw.length ∧
    (s.length = raw.length → s = raw ∧ ∀ c ∈ s,plain c = true) := by
  induction h with
  | nil => exact ⟨Nat.le_refl _,fun _ => ⟨rfl,List.forall_mem_nil _⟩⟩
  | plain c hc _ ih =>
    refine ⟨Nat.succ_le_succ ih.1,fun heq => ?_⟩
    obtain ⟨rfl,hall⟩ := ih.2 (Nat.succ.inj heq)
    exact ⟨rfl,List.forall_mem_cons.mpr ⟨hc,hall⟩⟩
  | escape | unit | pair =>
    simp only [List.length_cons]
    omega

theorem hexDigit_quote {a b c d : Char} {n : ℕ} (h : codeUnit a b c d = some n) :
    a ≠ '"' ∧ b ≠ '"' ∧ c ≠ '"' ∧ d ≠ '"' := by
  have hno : ∀ {e : Char} {k : ℕ},hexDigit e = some k → e ≠ '"' := by
    rintro e k he rfl
    have hnone : hexDigit '"' = none := by decide
    rw [hnone] at he
    cases he
  obtain ⟨_,ha,h⟩ := Option.bind_eq_some_iff.mp h
  obtain ⟨_,hb,h⟩ := Option.bind_eq_some_iff.mp h
  obtain ⟨_,hc,h⟩ := Option.bind_eq_some_iff.mp h
  obtain ⟨_,hd,-⟩ := Option.bind_eq_some_iff.mp h
  exact ⟨hno ha,hno hb,hno hc,hno hd⟩

theorem quote_earlier (h : Body raw s) {i : ℕ} (hi : raw[i]? = some '"') : ∃ j < i,s[j]? = some '"' := by
  induction h generalizing i with
  | nil => cases hi
  | plain c hc _ ih =>
    cases i with
    | zero =>
      obtain rfl := Option.some.inj hi
      exact absurd hc (by decide)
    | succ i =>
      obtain ⟨j,hj,hs⟩ := ih hi
      exact ⟨j + 1,Nat.succ_lt_succ hj,hs⟩
  | escape e c he _ ih =>
    rcases i with _ | _ | i
    · exact absurd (Option.some.inj hi) (by decide)
    · obtain rfl := Option.some.inj hi
      exact ⟨0,Nat.one_pos,he.symm⟩
    · obtain ⟨j,hj,hs⟩ := ih hi
      exact ⟨j + 1,by omega,hs⟩
  | unit a b c d n hunit _ _ ih =>
    obtain ⟨ha,hb,hc,hd⟩ := hexDigit_quote hunit
    rcases i with _ | _ | _ | _ | _ | _ | i
    · exact absurd (Option.some.inj hi) (by decide)
    · exact absurd (Option.some.inj hi) (by decide)
    · exact absurd (Option.some.inj hi) ha
    · exact absurd (Option.some.inj hi) hb
    · exact absurd (Option.some.inj hi) hc
    · exact absurd (Option.some.inj hi) hd
    · obtain ⟨j,hj,hs⟩ := ih hi
      exact ⟨j + 1,by omega,hs⟩
  | pair a b c d a' b' c' d' high low hhigh hlow _ _ _ _ _ ih =>
    obtain ⟨ha,hb,hc,hd⟩ := hexDigit_quote hhigh
    obtain ⟨ha',hb',hc',hd'⟩ := hexDigit_quote hlow
    rcases i with _ | _ | _ | _ | _ | _ | _ | _ | _ | _ | _ | _ | i
    · exact absurd (Option.some.inj hi) (by decide)
    · exact absurd (Option.some.inj hi) (by decide)
    · exact absurd (Option.some.inj hi) ha
    · exact absurd (Option.some.inj hi) hb
    · exact absurd (Option.some.inj hi) hc
    · exact absurd (Option.some.inj hi) hd
    · exact absurd (Option.some.inj hi) (by decide)
    · exact absurd (Option.some.inj hi) (by decide)
    · exact absurd (Option.some.inj hi) ha'
    · exact absurd (Option.some.inj hi) hb'
    · exact absurd (Option.some.inj hi) hc'
    · exact absurd (Option.some.inj hi) hd'
    · obtain ⟨j,hj,hs⟩ := ih hi
      exact ⟨j + 1,by omega,hs⟩

theorem raw_plain (h : Scans ('"' :: (s ++ '"' :: rest)) (s :: ss)) :
    (∀ c ∈ s,plain c = true) ∧ Scans rest ss := by
  obtain ⟨raw,s',rest',ss',htext,hbody,heq,hrest⟩ := scans_quote h
  obtain ⟨rfl,rfl⟩ := List.cons.inj heq
  obtain ⟨hle,hsame⟩ := body_length hbody
  rcases Nat.lt_or_eq_of_le hle with hlt | heq
  · have hbefore : ∀ i,i < s.length → raw[i]? = s[i]? := by
      intro i hi
      have hget := congrArg (fun t : List Char => t[i]?) htext
      rw [List.getElem?_append_left hi,List.getElem?_append_left (by omega)] at hget
      exact hget.symm
    have hnone : ∀ i,i ≤ s.length → raw[i]? ≠ some '"' := by
      intro i
      induction i using Nat.strongRecOn with
      | _ i ih =>
        intro hi hquote
        obtain ⟨j,hj,hs⟩ := quote_earlier hbody hquote
        exact ih j hj (by omega) ((hbefore j (by omega)).trans hs)
    have hget := congrArg (fun t : List Char => t[s.length]?) htext
    rw [List.getElem?_append_right (Nat.le_refl _),List.getElem?_append_left hlt,Nat.sub_self] at hget
    exact absurd hget.symm (hnone _ (Nat.le_refl _))
  · obtain ⟨rfl,hall⟩ := hsame heq
    exact ⟨hall,(List.cons.inj (List.append_cancel_left htext)).2 ▸ hrest⟩

end scans

end JsonText
