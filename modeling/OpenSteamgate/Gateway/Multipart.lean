import OpenSteamgate.Gateway.Entities
import OpenSteamgate.Library.Utf8

namespace OpenSteamgate.Gateway.Multipart

abbrev Bytes := List UInt8

def markerOf (boundary : Text) : Bytes := Utf8.encode ("--".toList ++ boundary)

section splitting

variable (marker body : Bytes)

def search (pos : Nat) : Nat :=
  if pos + marker.length ≤ body.length then
    if (body.drop pos).take marker.length = marker then pos else search (pos + 1)
  else pos
termination_by body.length + 1 - pos

def blank (b : UInt8) : Bool := b == 0x20 || b == 0x09

structure Delimiter where
  closing : Bool
  after : Nat

def lineEnd (closing : Bool) (after : Nat) : Option Delimiter :=
  if after = body.length then if closing = true then some ⟨closing,after⟩ else none
  else if (body.drop after).take 1 = [0x0A] then some ⟨closing,after + 1⟩
  else if (body.drop after).take 2 = [0x0D,0x0A] then some ⟨closing,after + 2⟩
  else none

def delimiter (pos : Nat) : Option Delimiter :=
  let after := pos + marker.length
  let closing := (body.drop after).take 2 == [0x2D,0x2D]
  let after := if closing = true then after + 2 else after
  let after := after + ((body.drop after).takeWhile blank).length
  if pos = 0 ∨ (body.drop (pos - 1)).take 1 = [0x0A] then lineEnd body closing after else none

def part (start pos : Nat) : List Bytes :=
  if 0 < start then
    let stop := pos - 1
    let stop := if start < stop ∧ (body.drop (stop - 1)).take 1 = [0x0D] then stop - 1 else stop
    if start ≤ stop then [(body.drop start).take (stop - start)] else []
  else []

structure Error where
  status : Nat
  code : String
  message : String

def missing : Error := ⟨400,"STG/BAD_BATCH","Missing closing multipart boundary"⟩

theorem le_search (pos : Nat) : pos ≤ search marker body pos := by
  fun_induction search marker body pos with
  | case1 pos h heq => exact le_rfl
  | case2 pos h heq ih => exact (Nat.le_succ pos).trans ih
  | case3 pos h => exact le_rfl

variable {marker body} {pos scan start : Nat} {d : Delimiter}

theorem lt_lineEnd {closing : Bool} {after : Nat} (h : lineEnd body closing after = some d) :
    after < d.after ∨ closing = true ∧ d.after = after := by
  rw [lineEnd] at h
  split_ifs at h with hlen hclosing hlf hcrlf
  · obtain rfl := Option.some.inj h
    exact .inr ⟨hclosing,rfl⟩
  · obtain rfl := Option.some.inj h
    exact .inl (Nat.lt_succ_self _)
  · obtain rfl := Option.some.inj h
    exact .inl (Nat.lt_add_of_pos_right (by decide))

theorem lt_delimiter (h : delimiter marker body pos = some d) : pos < d.after := by
  simp only [delimiter] at h
  split at h
  · rcases lt_lineEnd h with hlt | ⟨hclosing,heq⟩
    · split at hlt <;> omega
    · rw [heq,if_pos hclosing]
      omega
  · cases h

def chunksFrom (marker body : Bytes) (scan start : Nat) (chunks : List Bytes) :
    Except Error (List Bytes) :=
  if scan < body.length then
    let pos := search marker body scan
    if body.length < pos + marker.length then .error missing
    else
      match hd : delimiter marker body pos with
      | none => chunksFrom marker body (pos + 1) start chunks
      | some d =>
          let chunks := chunks ++ part body start pos
          if d.closing = true then .ok chunks
          else chunksFrom marker body d.after d.after chunks
  else .error missing
termination_by body.length - scan
decreasing_by
  · have := le_search marker body scan
    omega
  · have := le_search marker body scan
    have := lt_delimiter hd
    omega

def chunks (body : Bytes) (boundary : Text) : Except Error (List Bytes) :=
  chunksFrom (markerOf boundary) body 0 0 []

end splitting

variable {marker body : Bytes} {pos scan start : Nat} {acc : List Bytes} {d : Delimiter}

theorem chunksFrom_eq (marker body : Bytes) (scan start : Nat) (acc : List Bytes) :
    chunksFrom marker body scan start acc =
      if scan < body.length then
        if body.length < search marker body scan + marker.length then .error missing
        else (delimiter marker body (search marker body scan)).elim
          (chunksFrom marker body (search marker body scan + 1) start acc) fun d =>
            if d.closing = true then .ok (acc ++ part body start (search marker body scan))
            else chunksFrom marker body d.after d.after
              (acc ++ part body start (search marker body scan))
      else .error missing := by
  rw [chunksFrom]
  simp only
  split_ifs
  · rfl
  · split
    · rename_i hd
      rw [hd]
      rfl
    · rename_i hd
      rw [hd]
      rfl
  · rfl

def delimiterAt (marker body : Bytes) (pos : Nat) : Option Delimiter :=
  if (body.drop pos).take marker.length = marker then delimiter marker body pos else none

theorem fits (hpos : 0 < marker.length) (h : (body.drop pos).take marker.length = marker) :
    pos + marker.length ≤ body.length := by
  have hlen := congrArg List.length h
  rw [List.length_take,List.length_drop] at hlen
  omega

theorem chunksFrom_skip (hpos : 0 < marker.length) (h : delimiterAt marker body scan = none) :
    chunksFrom marker body scan start acc = chunksFrom marker body (scan + 1) start acc := by
  rw [delimiterAt] at h
  rw [chunksFrom_eq]
  by_cases hscan : scan < body.length
  · rw [if_pos hscan]
    by_cases hfit : scan + marker.length ≤ body.length
    · by_cases hmark : (body.drop scan).take marker.length = marker
      · rw [if_pos hmark] at h
        rw [search,if_pos hfit,if_pos hmark,if_neg (not_lt.mpr hfit),h]
        rfl
      · have hnext : search marker body scan = search marker body (scan + 1) := by
          rw [search,if_pos hfit,if_neg hmark]
        rw [hnext,chunksFrom_eq marker body (scan + 1)]
        by_cases hlast : scan + 1 < body.length
        · rw [if_pos hlast]
        · rw [if_neg hlast,if_pos]
          have := le_search marker body (scan + 1)
          omega
    · rw [search,if_neg hfit,if_pos (not_le.mp hfit),chunksFrom_eq]
      by_cases hlast : scan + 1 < body.length
      · rw [if_pos hlast,if_pos]
        have := le_search marker body (scan + 1)
        omega
      · rw [if_neg hlast]
  · rw [if_neg hscan,chunksFrom_eq,if_neg (by omega)]

theorem chunksFrom_hit (hpos : 0 < marker.length) (h : delimiterAt marker body scan = some d) :
    chunksFrom marker body scan start acc =
      if d.closing = true then .ok (acc ++ part body start scan)
      else chunksFrom marker body d.after d.after (acc ++ part body start scan) := by
  rw [delimiterAt] at h
  split at h
  · rename_i hmark
    have hfit := fits hpos hmark
    have hsearch : search marker body scan = scan := by
      rw [search,if_pos hfit,if_pos hmark]
    rw [chunksFrom_eq,if_pos (by omega),hsearch,if_neg (not_lt.mpr hfit),h]
    rfl
  · cases h

theorem chunksFrom_quiet (hpos : 0 < marker.length) {n : Nat}
    (h : ∀ i,i < n → delimiterAt marker body (scan + i) = none) :
    chunksFrom marker body scan start acc = chunksFrom marker body (scan + n) start acc := by
  induction n with
  | zero => rfl
  | succ n ih =>
    rw [ih fun i hi => h i (Nat.lt_succ_of_lt hi),chunksFrom_skip hpos (h n n.lt_succ_self)]
    rfl

def AtLine (before : Bytes) : Prop := before = [] ∨ ∃ init, before = init ++ [0x0A]

def Ended (rest : Bytes) : Prop := rest = [] ∨ ∃ more, rest = 0x0A :: more ∨ rest = 0x0D :: 0x0A :: more

def Ends (rest : Bytes) : Prop :=
  ∃ dashes blanks more, rest = dashes ++ (blanks ++ more) ∧ (dashes = [] ∨ dashes = [0x2D,0x2D]) ∧
    (∀ b ∈ blanks, blank b = true) ∧ Ended more

theorem take_one {l : Bytes} {b : UInt8} (h : l.take 1 = [b]) : ∃ more,l = b :: more := by
  cases l with
  | nil => cases h
  | cons c l => exact ⟨l,congrArg (· :: l) (List.cons.inj h).1⟩

theorem take_two {l : Bytes} {b c : UInt8} (h : l.take 2 = [b,c]) : ∃ more,l = b :: c :: more := by
  cases l with
  | nil => cases h
  | cons b' l =>
    rw [List.take_succ_cons,List.cons.injEq] at h
    obtain ⟨more,rfl⟩ := take_one h.2
    exact ⟨more,congrArg (· :: c :: more) h.1⟩

theorem lineEnd_ended {closing : Bool} {after : Nat} (h : lineEnd body closing after = some d) :
    Ended (body.drop after) := by
  rw [lineEnd] at h
  split_ifs at h with hlen hclosing hlf hcrlf
  · exact .inl (List.drop_eq_nil_of_le hlen.ge)
  · obtain ⟨more,hmore⟩ := take_one hlf
    exact .inr ⟨more,.inl hmore⟩
  · obtain ⟨more,hmore⟩ := take_two hcrlf
    exact .inr ⟨more,.inr hmore⟩

theorem drop_takeWhile (l : Bytes) : l.drop (l.takeWhile blank).length = l.dropWhile blank := by
  have h : (l.takeWhile blank ++ l.dropWhile blank).drop (l.takeWhile blank).length =
      l.dropWhile blank := List.drop_left
  rwa [List.takeWhile_append_dropWhile] at h

theorem blank_of_mem {l : Bytes} (b : UInt8) (h : b ∈ l.takeWhile blank) : blank b = true :=
  List.all_eq_true.mp List.all_takeWhile b h

theorem delimiter_some {before rest : Bytes}
    (h : delimiter marker (before ++ (marker ++ rest)) before.length = some d) :
    AtLine before ∧ Ends rest := by
  have hdrop : ∀ n,(before ++ (marker ++ rest)).drop (before.length + marker.length + n) =
      rest.drop n := fun n => by
    rw [← List.append_assoc,← List.length_append,← List.drop_drop,List.drop_left]
  simp only [delimiter] at h
  split at h
  · rename_i hline
    refine ⟨?_,?_⟩
    · rcases List.eq_nil_or_concat before with rfl | ⟨init,b,rfl⟩
      · exact .inl rfl
      · rw [List.concat_eq_append] at hline ⊢
        refine .inr ⟨init,?_⟩
        rcases hline with hzero | hlf
        · rw [List.length_append] at hzero
          cases hzero
        · rw [List.length_append,List.length_singleton,Nat.add_sub_cancel,List.append_assoc,
            List.drop_left] at hlf
          rw [(List.cons.inj hlf).1]
    · have hend := lineEnd_ended h
      have hzero := hdrop 0
      rw [Nat.add_zero,List.drop_zero] at hzero
      rw [hzero] at hend
      by_cases hclosing : rest.take 2 = [0x2D,0x2D]
      · obtain ⟨more,rfl⟩ := take_two hclosing
        rw [if_pos (by simp),hdrop,Nat.add_assoc,hdrop,← List.drop_drop] at hend
        refine ⟨[0x2D,0x2D],more.takeWhile blank,more.dropWhile blank,?_,.inr rfl,blank_of_mem,?_⟩
        · rw [List.takeWhile_append_dropWhile]
          rfl
        · rw [← drop_takeWhile]
          exact hend
      · rw [if_neg (by simpa using hclosing),hzero,hdrop] at hend
        refine ⟨[],rest.takeWhile blank,rest.dropWhile blank,?_,.inl rfl,blank_of_mem,?_⟩
        · rw [List.takeWhile_append_dropWhile]
          rfl
        · rw [← drop_takeWhile]
          exact hend
  · cases h

def Free (marker text : Bytes) : Prop :=
  ∀ before rest, text = before ++ (marker ++ rest) → AtLine before → ¬Ends rest

variable {g : UInt8} {x s pre : Bytes}

theorem marker_before (hg : g ∉ marker) (h : marker <+: x ++ g :: s) : marker <+: x := by
  obtain ⟨rest,hrest⟩ := h
  rcases List.append_eq_append_iff.mp hrest with ⟨more,hx,hrest⟩ | ⟨more,hmarker,hmore⟩
  · exact ⟨more,hx.symm⟩
  · cases more with
    | nil => exact ⟨[],by rw [hmarker,List.append_nil,List.append_nil]⟩
    | cons b more =>
      have hb : g = b := (List.cons.inj hmore).1
      refine absurd ?_ hg
      rw [hmarker,hb]
      exact List.mem_append_right _ List.mem_cons_self

theorem Ends.guarded (hblank : blank g = false) (hdash : g ≠ 0x2D) (h : Ends (x ++ g :: s)) :
    ∃ dashes blanks more,x = dashes ++ (blanks ++ more) ∧
      (dashes = [] ∨ dashes = [0x2D,0x2D]) ∧ (∀ b ∈ blanks,blank b = true) ∧
      Ended (more ++ g :: s) := by
  obtain ⟨dashes,blanks,more,heq,hdashes,hblanks,hended⟩ := h
  rw [← List.append_assoc] at heq
  have hmem : g ∉ dashes ++ blanks := fun hc => by
    rcases List.mem_append.mp hc with hc | hc
    · rcases hdashes with rfl | rfl
      · cases hc
      · simp only [List.mem_cons,List.not_mem_nil,or_false,or_self] at hc
        exact hdash hc
    · exact absurd (hblanks g hc) (by rw [hblank]; decide)
  obtain ⟨tail,htail⟩ := marker_before hmem (heq ▸ List.prefix_append _ _ : dashes ++ blanks <+: x ++ g :: s)
  refine ⟨dashes,blanks,tail,by rw [← List.append_assoc,htail],hdashes,hblanks,?_⟩
  rw [← htail,List.append_assoc (dashes ++ blanks)] at heq
  rw [List.append_cancel_left heq]
  exact hended

theorem AtLine.of_append {before : Bytes} (h : AtLine (pre ++ before)) : AtLine before := by
  rcases List.eq_nil_or_concat before with rfl | ⟨init,b,rfl⟩
  · exact .inl rfl
  · rw [List.concat_eq_append] at h ⊢
    rcases h with hnil | ⟨init',h⟩
    · simp at hnil
    · rw [← List.append_assoc] at h
      exact .inr ⟨init,congrArg (init ++ ·) (List.append_inj_right' h rfl)⟩

theorem delimiterAt_inside (hg : g ∉ marker) (hblank : blank g = false) (hdash : g ≠ 0x2D) {i : Nat}
    (hi : i ≤ x.length) (h : delimiterAt marker (pre ++ (x ++ g :: s)) (pre.length + i) = some d) :
    ∃ before after,x = before ++ (marker ++ after) ∧ AtLine before ∧
      ∃ dashes blanks more,after = dashes ++ (blanks ++ more) ∧
        (dashes = [] ∨ dashes = [0x2D,0x2D]) ∧ (∀ b ∈ blanks,blank b = true) ∧
        Ended (more ++ g :: s) := by
  have hdrop : (pre ++ (x ++ g :: s)).drop (pre.length + i) = x.drop i ++ g :: s := by
    rw [← List.drop_drop,List.drop_left,List.drop_append_of_le_length hi]
  rw [delimiterAt,hdrop] at h
  split at h
  · rename_i hmark
    obtain ⟨after,hafter⟩ := marker_before hg (hmark ▸ List.take_prefix _ _)
    have hx : x = x.take i ++ (marker ++ after) := by
      rw [hafter,List.take_append_drop]
    have hlen : (pre ++ x.take i).length = pre.length + i := by
      rw [List.length_append,List.length_take,Nat.min_eq_left hi]
    have hbody : pre ++ (x ++ g :: s) = (pre ++ x.take i) ++ (marker ++ (after ++ g :: s)) := by
      rw [← List.append_assoc marker,hafter,List.append_assoc pre,← List.append_assoc (x.take i),
        List.take_append_drop]
    rw [hbody,← hlen] at h
    obtain ⟨hline,hends⟩ := delimiter_some h
    exact ⟨x.take i,after,hx,hline.of_append,hends.guarded hblank hdash⟩
  · cases h

theorem Ended.of_crlf (h : Ended (x ++ 0x0D :: 0x0A :: s)) : Ended x := by
  rcases x with - | ⟨b,- | ⟨c,x⟩⟩
  · exact .inl rfl
  · rcases h with hnil | ⟨more,hlf | hcrlf⟩
    · cases hnil
    · exact .inr ⟨[],.inl (congrArg (· :: []) (List.cons.inj hlf).1)⟩
    · have := (List.cons.inj (List.cons.inj hcrlf).2).1
      exact absurd this (by decide)
  · rcases h with hnil | ⟨more,hlf | hcrlf⟩
    · cases hnil
    · exact .inr ⟨c :: x,.inl (congrArg (· :: c :: x) (List.cons.inj hlf).1)⟩
    · obtain ⟨hb,htail⟩ := List.cons.inj hcrlf
      exact .inr ⟨x,.inr (by rw [hb,(List.cons.inj htail).1])⟩

theorem Ended.of_lf (h : Ended (x ++ 0x0A :: s)) : Ended (x ++ [0x0A]) := by
  rcases x with - | ⟨b,- | ⟨c,x⟩⟩
  · exact .inr ⟨[],.inl rfl⟩
  · rcases h with hnil | ⟨more,hlf | hcrlf⟩
    · cases hnil
    · exact .inr ⟨[0x0A],.inl (congrArg (· :: [0x0A]) (List.cons.inj hlf).1)⟩
    · exact .inr ⟨[],.inr (congrArg (· :: [0x0A]) (List.cons.inj hcrlf).1)⟩
  · rcases h with hnil | ⟨more,hlf | hcrlf⟩
    · cases hnil
    · exact .inr ⟨c :: x ++ [0x0A],.inl (by rw [(List.cons.inj hlf).1]; rfl)⟩
    · obtain ⟨hb,htail⟩ := List.cons.inj hcrlf
      refine .inr ⟨x ++ [0x0A],.inr ?_⟩
      rw [hb,(List.cons.inj htail).1]
      rfl

section composed

structure Marker (marker : Bytes) : Prop where
  pos : 0 < marker.length
  cr : (0x0D : UInt8) ∉ marker
  lf : (0x0A : UInt8) ∉ marker

variable (hm : Marker marker)

include hm

theorem quiet_content {content : Bytes} (hfree : Free marker content) {i : Nat}
    (hi : i < content.length + 2) :
    delimiterAt marker (pre ++ (content ++ 0x0D :: 0x0A :: s)) (pre.length + i) = none := by
  rw [Option.eq_none_iff_forall_ne_some]
  intro d hd
  by_cases hinside : i ≤ content.length
  · obtain ⟨before,after,hcontent,hline,dashes,blanks,more,hafter,hdashes,hblanks,hended⟩ :=
      delimiterAt_inside hm.cr (by decide) (by decide) hinside hd
    exact hfree before after hcontent hline
      ⟨dashes,blanks,more,hafter,hdashes,hblanks,hended.of_crlf⟩
  · have hlast : i = content.length + 1 := by omega
    have hdrop : (pre ++ (content ++ 0x0D :: 0x0A :: s)).drop (pre.length + i) = 0x0A :: s := by
      rw [hlast,← List.drop_drop,List.drop_left,← List.drop_drop,List.drop_left,List.drop_one,List.tail_cons]
    rw [delimiterAt,hdrop] at hd
    split at hd
    · rename_i hmark
      refine hm.lf ?_
      rw [← hmark,← Nat.sub_add_cancel hm.pos,List.take_succ_cons]
      exact List.mem_cons_self
    · cases hd

theorem quiet_preamble {preamble : Bytes} (hline : AtLine preamble) (hfree : Free marker preamble)
    {i : Nat} (hi : i < preamble.length) : delimiterAt marker (preamble ++ s) (0 + i) = none := by
  rw [Option.eq_none_iff_forall_ne_some]
  intro d hd
  rcases hline with rfl | ⟨init,rfl⟩
  · cases hi
  · rw [List.length_append,List.length_singleton] at hi
    rw [List.append_assoc,List.singleton_append] at hd
    change delimiterAt marker ([] ++ (init ++ 0x0A :: s)) (([] : Bytes).length + i) = some d at hd
    obtain ⟨before,after,hcontent,hline,dashes,blanks,more,hafter,hdashes,hblanks,hended⟩ :=
      delimiterAt_inside hm.lf (by decide) (by decide) (Nat.lt_succ_iff.mp hi) hd
    refine hfree before (after ++ [0x0A]) ?_ hline
      ⟨dashes,blanks,more ++ [0x0A],?_,hdashes,hblanks,hended.of_lf⟩
    · rw [hcontent,List.append_assoc,List.append_assoc]
    · rw [hafter,List.append_assoc,List.append_assoc]

omit hm

theorem lineStart (hline : AtLine pre) :
    pre.length = 0 ∨ ((pre ++ s).drop (pre.length - 1)).take 1 = [0x0A] := by
  rcases hline with rfl | ⟨init,rfl⟩
  · exact .inl rfl
  · refine .inr ?_
    rw [List.length_append,List.length_singleton,Nat.add_sub_cancel,List.append_assoc,List.drop_left]
    rfl

theorem delimiterAt_line (rest : Bytes) :
    delimiterAt marker (pre ++ (marker ++ rest)) pre.length =
      delimiter marker (pre ++ (marker ++ rest)) pre.length := by
  rw [delimiterAt,List.drop_left,List.take_left,if_pos rfl]

theorem drop_marker (rest : Bytes) :
    (pre ++ (marker ++ rest)).drop (pre.length + marker.length) = rest := by
  rw [← List.append_assoc,← List.length_append,List.drop_left]

theorem delimiterAt_opening (marker s : Bytes) (hline : AtLine pre) :
    delimiterAt marker (pre ++ (marker ++ 0x0D :: 0x0A :: s)) pre.length =
      some ⟨false,pre.length + marker.length + 2⟩ := by
  have hlen : pre.length + marker.length ≠ (pre ++ (marker ++ 0x0D :: 0x0A :: s)).length := by
    simp only [List.length_append,List.length_cons]
    omega
  have hclosing : ((0x0D :: 0x0A :: s).take 2 == [(0x2D : UInt8),0x2D]) = false := rfl
  have hblank : ((0x0D :: 0x0A :: s).takeWhile blank).length = 0 := rfl
  rw [delimiterAt_line,delimiter]
  simp only [drop_marker,hclosing,Bool.false_eq_true,if_false,hblank,Nat.add_zero]
  rw [if_pos (lineStart hline),lineEnd,if_neg hlen,drop_marker]
  rfl

theorem delimiterAt_closing (marker : Bytes) (hline : AtLine pre) (htail : Ended s) :
    ∃ after,delimiterAt marker (pre ++ (marker ++ 0x2D :: 0x2D :: s)) pre.length =
      some ⟨true,after⟩ := by
  have hclosing : ((0x2D :: 0x2D :: s).take 2 == [(0x2D : UInt8),0x2D]) = true := rfl
  have hdrop : (pre ++ (marker ++ 0x2D :: 0x2D :: s)).drop (pre.length + marker.length + 2) = s := by
    rw [← List.drop_drop,drop_marker]
    rfl
  have hblank : (s.takeWhile blank).length = 0 := by
    rcases htail with rfl | ⟨more,rfl | rfl⟩ <;> rfl
  rw [delimiterAt_line,delimiter]
  simp only [drop_marker,hclosing,if_true,hdrop,hblank,Nat.add_zero]
  rw [if_pos (lineStart hline),lineEnd,hdrop]
  rcases htail with rfl | ⟨more,rfl | rfl⟩
  · refine ⟨_,if_pos ?_⟩
    simp only [List.length_append,List.length_cons,List.length_nil]
    omega
  · refine ⟨_,(if_neg ?_).trans rfl⟩
    simp only [List.length_append,List.length_cons]
    omega
  · refine ⟨_,(if_neg ?_).trans rfl⟩
    simp only [List.length_append,List.length_cons]
    omega

theorem part_content {content : Bytes} (hpre : 0 < pre.length) :
    part (pre ++ (content ++ 0x0D :: 0x0A :: s)) pre.length (pre.length + content.length + 2) =
      [content] := by
  have hstop : pre.length + content.length + 2 - 1 - 1 = pre.length + content.length := by omega
  have hcr : ((pre ++ (content ++ 0x0D :: 0x0A :: s)).drop (pre.length + content.length)).take 1 =
      [0x0D] := by
    rw [drop_marker]
    rfl
  rw [part,if_pos hpre]
  have hlt : pre.length < pre.length + content.length + 2 - 1 := by omega
  simp only [hstop]
  simp only [if_pos (And.intro hlt hcr)]
  rw [if_pos (Nat.le_add_right _ _),Nat.add_sub_cancel_left,List.drop_left,List.take_left]

def parts (marker : Bytes) (contents : List Bytes) : Bytes :=
  contents.flatMap fun content => marker ++ (0x0D :: 0x0A :: (content ++ [0x0D,0x0A]))

theorem parts_append (marker content : Bytes) (contents : List Bytes) (final : Bytes) :
    parts marker (content :: contents) ++ final =
      marker ++ 0x0D :: 0x0A :: (content ++ 0x0D :: 0x0A :: (parts marker contents ++ final)) := by
  simp [parts]

def closer (marker tail : Bytes) : Bytes := marker ++ 0x2D :: 0x2D :: tail

theorem line_after (pre content : Bytes) : AtLine (pre ++ (content ++ [0x0D,0x0A])) :=
  .inr ⟨pre ++ (content ++ [0x0D]),by simp⟩

theorem line_length (pre content : Bytes) :
    (pre ++ (content ++ [0x0D,0x0A])).length = pre.length + content.length + 2 := by
  simp only [List.length_append,List.length_cons,List.length_nil]
  omega

theorem line_append (pre content rest : Bytes) :
    pre ++ (content ++ 0x0D :: 0x0A :: rest) = (pre ++ (content ++ [0x0D,0x0A])) ++ rest := by
  simp

include hm in
theorem chunksFrom_content {content : Bytes} (hfree : Free marker content)
    (rest : Bytes) :
    chunksFrom marker (pre ++ (content ++ 0x0D :: 0x0A :: rest)) pre.length pre.length acc =
      chunksFrom marker (pre ++ (content ++ 0x0D :: 0x0A :: rest))
        (pre.length + content.length + 2) pre.length acc :=
  chunksFrom_quiet hm.pos fun _ hi => quiet_content hm hfree hi

include hm in
theorem chunksFrom_parts (final : Bytes) (answer : List Bytes → Except Error (List Bytes))
    (hfinal : ∀ (pre content : Bytes) (acc : List Bytes),0 < pre.length →
      chunksFrom marker (pre ++ (content ++ 0x0D :: 0x0A :: final))
        (pre.length + content.length + 2) pre.length acc = answer (acc ++ [content]))
    {content : Bytes} (contents : List Bytes) (hpre : 0 < pre.length)
    (hfree : ∀ c ∈ content :: contents,Free marker c) :
    chunksFrom marker (pre ++ (content ++ 0x0D :: 0x0A :: (parts marker contents ++ final)))
      pre.length pre.length acc = answer (acc ++ content :: contents) := by
  induction contents generalizing pre content acc with
  | nil =>
    rw [chunksFrom_content hm (hfree _ List.mem_cons_self)]
    exact hfinal pre content acc hpre
  | cons next contents ih =>
    rw [chunksFrom_content hm (hfree _ List.mem_cons_self)]
    have hopening := delimiterAt_opening marker
      (next ++ 0x0D :: 0x0A :: (parts marker contents ++ final)) (line_after pre content)
    rw [← line_append,line_length,← parts_append] at hopening
    have hbehind : (pre ++ (content ++ 0x0D :: 0x0A :: marker)) ++ [0x0D,0x0A] ++
        (next ++ 0x0D :: 0x0A :: (parts marker contents ++ final)) =
          pre ++ (content ++ 0x0D :: 0x0A :: (parts marker (next :: contents) ++ final)) := by
      rw [parts_append]
      simp
    have hlength : ((pre ++ (content ++ 0x0D :: 0x0A :: marker)) ++ [0x0D,0x0A]).length =
        pre.length + content.length + 2 + marker.length + 2 := by
      simp only [List.length_append,List.length_cons,List.length_nil]
      omega
    have hnext : chunksFrom marker ((pre ++ (content ++ 0x0D :: 0x0A :: marker)) ++ [0x0D,0x0A] ++
        (next ++ 0x0D :: 0x0A :: (parts marker contents ++ final))) _ _ (acc ++ [content]) =
          answer (acc ++ [content] ++ next :: contents) :=
      ih (hlength ▸ Nat.succ_pos _) fun c hc => hfree c (List.mem_cons_of_mem _ hc)
    rw [hbehind,hlength] at hnext
    rw [chunksFrom_hit hm.pos hopening,if_neg Bool.false_ne_true,part_content hpre,hnext,List.append_assoc]
    rfl

include hm in
theorem chunksFrom_closed {tail : Bytes} (htail : Ended tail) (pre content : Bytes)
    (acc : List Bytes) (hpre : 0 < pre.length) :
    chunksFrom marker (pre ++ (content ++ 0x0D :: 0x0A :: closer marker tail))
      (pre.length + content.length + 2) pre.length acc = .ok (acc ++ [content]) := by
  obtain ⟨after,hclosing⟩ := delimiterAt_closing marker (line_after pre content) htail
  rw [← line_append,line_length] at hclosing
  rw [closer,chunksFrom_hit hm.pos hclosing,if_pos rfl,part_content hpre]

theorem chunksFrom_unclosed (pre content : Bytes) (acc : List Bytes) :
    chunksFrom marker (pre ++ (content ++ [0x0D,0x0A]))
      (pre.length + content.length + 2) pre.length acc = .error missing := by
  rw [chunksFrom_eq,if_neg (by rw [line_length]; exact lt_irrefl _)]

include hm in
theorem chunksFrom_first {preamble : Bytes} (hline : AtLine preamble) (hfree : Free marker preamble)
    (content rest : Bytes) :
    chunksFrom marker (preamble ++ (marker ++ 0x0D :: 0x0A :: (content ++ 0x0D :: 0x0A :: rest)))
        0 0 [] =
      chunksFrom marker ((preamble ++ (marker ++ [0x0D,0x0A])) ++ (content ++ 0x0D :: 0x0A :: rest))
        (preamble ++ (marker ++ [0x0D,0x0A])).length (preamble ++ (marker ++ [0x0D,0x0A])).length
        [] := by
  have hbody : (preamble ++ (marker ++ [0x0D,0x0A])) ++ (content ++ 0x0D :: 0x0A :: rest) =
      preamble ++ (marker ++ 0x0D :: 0x0A :: (content ++ 0x0D :: 0x0A :: rest)) := by
    simp
  have hlength := line_length preamble marker
  rw [chunksFrom_quiet hm.pos fun _ hi => quiet_preamble hm hline hfree hi,Nat.zero_add,
    chunksFrom_hit hm.pos (delimiterAt_opening _ _ hline),if_neg Bool.false_ne_true,hbody,hlength]
  rfl

end composed

theorem mem_encode_ascii {p : Nat} {b : UInt8} (hp : p < Wtf8.limit) (hb : b ∈ Wtf8.encode p)
    (hascii : b.toNat < 128) : b.toNat = p := by
  have hlimit : p < 1114112 := hp
  rw [Wtf8.encode] at hb
  split_ifs at hb with h₁ h₂ h₃ <;>
    simp only [List.mem_cons,List.not_mem_nil,or_false] at hb
  · rw [hb,Utf8.toNat_byte (by omega)]
  · rcases hb with rfl | rfl <;> rw [Utf8.toNat_byte (by omega)] at hascii <;> omega
  · rcases hb with rfl | rfl | rfl <;> rw [Utf8.toNat_byte (by omega)] at hascii <;> omega
  · rcases hb with rfl | rfl | rfl | rfl <;> rw [Utf8.toNat_byte (by omega)] at hascii <;> omega

theorem mem_encode {text : Text} {b : UInt8} (hb : b ∈ Utf8.encode text) (hascii : b.toNat < 128) :
    ∃ c ∈ text,c.toNat = b.toNat := by
  induction text with
  | nil => cases hb
  | cons c text ih =>
    rw [Utf8.encode_cons,List.mem_append] at hb
    rcases hb with hb | hb
    · have hc : c.toNat < Wtf8.limit := by
        rcases c.valid with h | h
        · exact h.trans (by decide)
        · exact h.2
      exact ⟨c,List.mem_cons_self,(mem_encode_ascii hc hb hascii).symm⟩
    · obtain ⟨c',hc',heq⟩ := ih hb
      exact ⟨c',List.mem_cons_of_mem _ hc',heq⟩

theorem marker_markerOf {boundary : Text}
    (h : ∀ c ∈ boundary,c ≠ ' ' ∧ c ≠ '\r' ∧ c ≠ '\n') : Marker (markerOf boundary) := by
  have hchar : ∀ c ∈ "--".toList ++ boundary, c ≠ '\r' ∧ c ≠ '\n' := fun c hc => by
    rcases List.mem_append.mp hc with hc | hc
    · have hdash : c = '-' := by simpa using hc
      rw [hdash]
      decide
    · exact (h c hc).2
  refine ⟨?_,fun hc => ?_,fun hc => ?_⟩
  · rw [markerOf,Utf8.encode_append,List.length_append]
    exact Nat.add_pos_left (by decide) _
  · obtain ⟨c,hc,heq⟩ := mem_encode hc (by decide)
    exact (hchar c hc).1 (Char.toNat_inj.mp heq)
  · obtain ⟨c,hc,heq⟩ := mem_encode hc (by decide)
    exact (hchar c hc).2 (Char.toNat_inj.mp heq)

theorem chunks_compose (boundary : Text) (hboundary : ∀ c ∈ boundary, c ≠ ' ' ∧ c ≠ '\r' ∧ c ≠ '\n')
    (preamble : Bytes) (hline : AtLine preamble) (contents : List Bytes)
    (hpreamble : Free (markerOf boundary) preamble)
    (hcontents : ∀ content ∈ contents, Free (markerOf boundary) content) :
    (∀ tail, (tail = [] ∨ ∃ epilogue, tail = 0x0D :: 0x0A :: epilogue) →
        chunks (preamble ++ (parts (markerOf boundary) contents ++ closer (markerOf boundary) tail))
          boundary = .ok contents) ∧
      chunks (preamble ++ parts (markerOf boundary) contents) boundary = .error missing := by
  have hm := marker_markerOf hboundary
  have hended : ∀ tail : Bytes, (tail = [] ∨ ∃ epilogue, tail = 0x0D :: 0x0A :: epilogue) →
      Ended tail := fun tail htail => htail.imp_right fun ⟨epilogue,h⟩ => ⟨epilogue,.inr h⟩
  simp only [chunks]
  generalize markerOf boundary = marker at hm hpreamble hcontents
  cases contents with
  | nil =>
    refine ⟨fun tail htail => ?_,?_⟩
    · obtain ⟨after,hclosing⟩ := delimiterAt_closing marker hline (hended tail htail)
      rw [parts,List.flatMap_nil,List.nil_append,closer,
        chunksFrom_quiet hm.pos fun _ hi => quiet_preamble hm hline hpreamble hi,Nat.zero_add,
        chunksFrom_hit hm.pos hclosing,if_pos rfl]
      rfl
    · have hquiet : chunksFrom marker (preamble ++ []) 0 0 [] =
          chunksFrom marker (preamble ++ []) (0 + preamble.length) 0 [] :=
        chunksFrom_quiet hm.pos fun _ hi => quiet_preamble hm hline hpreamble hi
      rw [List.append_nil,Nat.zero_add] at hquiet
      rw [parts,List.flatMap_nil,List.append_nil,hquiet,chunksFrom_eq,if_neg (lt_irrefl _)]
  | cons content contents =>
    have hpos : 0 < (preamble ++ (marker ++ [0x0D,0x0A])).length := by
      rw [line_length]
      omega
    refine ⟨fun tail htail => ?_,?_⟩
    · rw [parts_append,chunksFrom_first hm hline hpreamble,
        chunksFrom_parts hm _ .ok (chunksFrom_closed hm (hended tail htail)) contents hpos
          hcontents]
      rfl
    · have hopen := parts_append marker content contents []
      rw [List.append_nil] at hopen
      rw [hopen,chunksFrom_first hm hline hpreamble]
      exact chunksFrom_parts hm [] (fun _ => .error missing)
        (fun pre content acc _ => chunksFrom_unclosed pre content acc) contents hpos hcontents

theorem free_of_short {text : Bytes} (h : text.length < marker.length) : Free marker text := by
  intro before rest htext
  rw [htext,List.length_append,List.length_append] at h
  omega

theorem chunks_compose_two :
    chunks [0x2D,0x2D,0x62,0x0D,0x0A,0x0D,0x0D,0x0A,0x2D,0x2D,0x62,0x0D,0x0A,0x0D,0x0A,0x2D,0x2D,
      0x62,0x2D,0x2D] "b".toList = .ok [[0x0D],[]] :=
  (chunks_compose "b".toList (by simp) [] (.inl rfl) [[0x0D],[]] (free_of_short (by decide))
    fun content hc => free_of_short (by
      simp only [List.mem_cons,List.not_mem_nil,or_false] at hc
      rcases hc with rfl | rfl <;> decide)).1 [] (.inl rfl)

end OpenSteamgate.Gateway.Multipart
