import OpenSteamgate.Tpl.Tokens

namespace OpenSteamgate.Tpl

def Token.opens (t : Token) : Bool := t.kind == .opening || t.kind == .inverted

def matchFrom (source : Source) : List Token → ℕ → List (ℕ × Token) →
    Except TplError (List (ℕ × ℕ))
  | [],_,opened =>
    match opened.getLast? with
    | none => .ok []
    | some o => .error (.sectionNotClosed (lineOf source o.2.start) o.2.name)
  | t :: ts,i,opened =>
    if t.opens then matchFrom source ts (i + 1) ((i,t) :: opened)
    else if t.kind = .close then
      match opened with
      | [] => .error (.withoutOpen (lineOf source t.start) t.name)
      | o :: opened =>
        if o.2.name = t.name then
          (matchFrom source ts (i + 1) opened).map ((o.1,i) :: ·)
        else .error (.closeFor (lineOf source t.start) t.name o.2.name)
    else matchFrom source ts (i + 1) opened

def closed (ps : List (ℕ × ℕ)) (ts : List Token) : List Token :=
  ps.foldl (fun ts p => ts.modify (p.1 - 1) fun t => {t with close := p.2}) ts

def matchSections (source : Source) (ts : List Token) : Except TplError (List Token) :=
  (matchFrom source ts 1 []).map fun ps => closed ps ts

def parse (source : Source) : Except TplError (List Token) :=
  tokenize source >>= matchSections source

inductive Nested : ℕ → List Token → List (ℕ × ℕ) → Prop
  | nil (i : ℕ) : Nested i [] []
  | plain {i t ts ps} (ht : t.opens = false) (hclose : t.kind ≠ .close) (h : Nested (i + 1) ts ps) :
      Nested i (t :: ts) ps
  | sect {i o c inner rest ps qs} (ho : o.opens = true) (hc : c.kind = .close)
      (hname : o.name = c.name) (hinner : Nested (i + 1) inner ps)
      (hrest : Nested (i + 1 + inner.length + 1) rest qs) :
      Nested i (o :: (inner ++ c :: rest)) (ps ++ (i,i + 1 + inner.length) :: qs)

section matching

variable {source : Source} {i : ℕ} {ts : List Token} {ps : List (ℕ × ℕ)} {opened : List (ℕ × Token)}

theorem opens_close {t : Token} (h : t.kind = .close) : t.opens = false := by
  rw [Token.opens,h]
  rfl

section steps

variable {t : Token} {o : ℕ × Token}

theorem matchFrom_opens (h : t.opens = true) : matchFrom source (t :: ts) i opened =
    matchFrom source ts (i + 1) ((i,t) :: opened) := by
  cases opened with
  | nil => exact if_pos h
  | cons o opened => exact if_pos h

theorem matchFrom_plain (h : t.opens = false) (hclose : t.kind ≠ .close) :
    matchFrom source (t :: ts) i opened = matchFrom source ts (i + 1) opened := by
  have hopens : ¬t.opens = true := by simp [h]
  cases opened with
  | nil => exact (if_neg hopens).trans (if_neg hclose)
  | cons o opened => exact (if_neg hopens).trans (if_neg hclose)

theorem matchFrom_closes (h : t.kind = .close) : matchFrom source (t :: ts) i (o :: opened) =
    if o.2.name = t.name then (matchFrom source ts (i + 1) opened).map ((o.1,i) :: ·)
    else .error (.closeFor (lineOf source t.start) t.name o.2.name) := by
  have hopens : ¬t.opens = true := by simp [opens_close h]
  exact (if_neg hopens).trans (if_pos h)

theorem matchFrom_without (h : t.kind = .close) : matchFrom source (t :: ts) i [] =
    .error (.withoutOpen (lineOf source t.start) t.name) := by
  have hopens : ¬t.opens = true := by simp [opens_close h]
  exact (if_neg hopens).trans (if_pos h)

end steps

theorem Nested.matches (h : Nested i ts ps) (rest : List Token) (opened : List (ℕ × Token)) :
    matchFrom source (ts ++ rest) i opened =
      (matchFrom source rest (i + ts.length) opened).map (ps ++ ·) := by
  induction h generalizing rest opened with
  | nil i =>
    rw [List.nil_append,List.length_nil,Nat.add_zero]
    cases matchFrom source rest i opened with
    | error e => rfl
    | ok qs => rfl
  | @plain i t ts ps ht hclose _ ih =>
    rw [List.cons_append,matchFrom_plain ht hclose,ih,List.length_cons,Nat.add_assoc i 1,Nat.add_comm 1]
  | @sect i o c inner after ps qs ho hc hname _ _ ihinner ihrest =>
    rw [List.cons_append,matchFrom_opens ho,List.append_assoc,ihinner,List.cons_append,
      matchFrom_closes hc,if_pos hname,ihrest]
    have hlength : i + 1 + inner.length + 1 + after.length =
        i + (o :: (inner ++ c :: after)).length := by
      rw [List.length_cons,List.length_append,List.length_cons]
      omega
    rw [hlength]
    cases matchFrom source rest (i + (o :: (inner ++ c :: after)).length) opened with
    | error e => rfl
    | ok rs => simp [Except.map]

def Reading (source : Source) (i : ℕ) (ts : List Token) (ps : List (ℕ × ℕ)) :
    List (ℕ × Token) → Prop
  | [] => Nested i ts ps
  | o :: opened => ∃ inner c rest qs rs, ts = inner ++ c :: rest ∧ Nested i inner qs ∧
      c.kind = .close ∧ o.2.name = c.name ∧ ps = qs ++ (o.1,i + inner.length) :: rs ∧
      matchFrom source rest (i + inner.length + 1) opened = .ok rs

theorem Reading.plain {t : Token} (ht : t.opens = false) (hclose : t.kind ≠ .close)
    (h : Reading source (i + 1) ts ps opened) : Reading source i (t :: ts) ps opened := by
  cases opened with
  | nil => exact .plain ht hclose h
  | cons o opened =>
    obtain ⟨inner,c,rest,qs,rs,rfl,hinner,hc,hname,rfl,hrun⟩ := h
    refine ⟨t :: inner,c,rest,qs,rs,rfl,.plain ht hclose hinner,hc,hname,?_,?_⟩
    · rw [List.length_cons,Nat.add_assoc i 1,Nat.add_comm 1]
    · rw [List.length_cons,← Nat.add_assoc i,Nat.add_right_comm i]
      exact hrun

theorem Reading.sect {t c : Token} {inner rest : List Token} {qs rs : List (ℕ × ℕ)}
    (ht : t.opens = true) (hc : c.kind = .close) (hname : t.name = c.name)
    (hinner : Nested (i + 1) inner qs)
    (h : Reading source (i + 1 + inner.length + 1) rest rs opened) :
    Reading source i (t :: (inner ++ c :: rest)) (qs ++ (i,i + 1 + inner.length) :: rs) opened := by
  cases opened with
  | nil => exact .sect ht hc hname hinner h
  | cons o opened =>
    obtain ⟨inner',c',rest',qs',rs',rfl,hinner',hc',hname',rfl,hrun⟩ := h
    have hlength : (t :: (inner ++ c :: inner')).length = 1 + inner.length + 1 + inner'.length := by
      rw [List.length_cons,List.length_append,List.length_cons]
      omega
    refine ⟨t :: (inner ++ c :: inner'),c',rest',_,rs',?_,.sect ht hc hname hinner hinner',hc',hname',
      ?_,?_⟩
    · simp
    · rw [hlength]
      simp [Nat.add_assoc]
    · rw [hlength]
      simpa [Nat.add_assoc] using hrun

theorem matchFrom_ok (n : ℕ) (hn : ts.length ≤ n) (h : matchFrom source ts i opened = .ok ps) :
    Reading source i ts ps opened := by
  induction n generalizing ts i opened ps with
  | zero =>
    rw [List.length_eq_zero_iff.mp (Nat.le_zero.mp hn)] at h ⊢
    cases opened with
    | nil =>
      cases h
      exact .nil i
    | cons o opened =>
      obtain ⟨last,hlast⟩ : ∃ last,(o :: opened).getLast? = some last :=
        ⟨_,List.getLast?_eq_some_getLast (List.cons_ne_nil o opened)⟩
      rw [matchFrom,hlast] at h
      cases h
  | succ n ih =>
    cases ts with
    | nil => exact ih (Nat.zero_le n) h
    | cons t ts =>
      have hts : ts.length ≤ n := Nat.le_of_succ_le_succ hn
      by_cases ht : t.opens = true
      · rw [matchFrom_opens ht] at h
        obtain ⟨inner,c,rest,qs,rs,rfl,hinner,hc,hname,rfl,hrun⟩ := ih hts h
        refine .sect ht hc hname hinner (ih ?_ hrun)
        rw [List.length_append,List.length_cons] at hts
        omega
      · have ht : t.opens = false := by simpa using ht
        by_cases hclose : t.kind = .close
        · cases opened with
          | nil =>
            rw [matchFrom_without hclose] at h
            cases h
          | cons o opened =>
            rw [matchFrom_closes hclose] at h
            by_cases hname : o.2.name = t.name
            · rw [if_pos hname] at h
              cases hrun : matchFrom source ts (i + 1) opened with
              | error e =>
                rw [hrun] at h
                cases h
              | ok rs =>
                rw [hrun] at h
                cases h
                exact ⟨[],t,ts,[],rs,rfl,.nil i,hclose,hname,rfl,hrun⟩
            · rw [if_neg hname] at h
              cases h
        · rw [matchFrom_plain ht hclose] at h
          exact .plain ht hclose (ih hts h)

theorem matchFrom_iff : matchFrom source ts i [] = .ok ps ↔ Nested i ts ps := by
  constructor
  · exact fun h => matchFrom_ok ts.length (Nat.le_refl _) h
  · intro h
    have hmatches : matchFrom source (ts ++ []) i [] = _ := h.matches [] []
    rw [List.append_nil] at hmatches
    rw [hmatches]
    exact congrArg Except.ok (List.append_nil ps)

end matching

end OpenSteamgate.Tpl
