import OpenSteamgate.Library.Wtf8
import OpenSteamgate.Sxml.BytesToUtf8

namespace OpenSteamgate.Sxml

section whole

open Wtf8

variable {kind : Kind} {eof : Bool} {text more rv : List UInt8} {p q : Nat}

def codeUnits (kind : Kind) : List UInt8 → List Nat
  | first :: second :: text => unit kind first second :: codeUnits kind text
  | [_] => [65533]
  | [] => []

def codePoints : Kind → List UInt8 → List Nat
  | .l1,text => text.map UInt8.toNat
  | .as,text => text.map fun byte => if 127 < byte.toNat then 65533 else byte.toNat
  | kind,text => fuse (codeUnits kind text)

def transcode (kind : Kind) (text : List UInt8) : List UInt8 := bytes (codePoints kind text)

theorem utf8_encode (code : Nat) (out : List UInt8) : utf8 code out = out ++ encode code := by
  rw [utf8,encode]
  split
  · rfl
  · split
    · rfl
    · split <;> rfl

theorem encode_ne_nil (code : Nat) : encode code ≠ [] := by
  rw [encode]
  split
  · exact List.cons_ne_nil _ _
  · split
    · exact List.cons_ne_nil _ _
    · split <;> exact List.cons_ne_nil _ _

theorem high_iff (code : Nat) : 55296 ≤ code ∧ code ≤ 56319 ↔ High code := by
  rw [High]
  omega

theorem low_iff (code : Nat) : 56320 ≤ code ∧ code ≤ 57343 ↔ Low code := by
  rw [Low]
  omega

theorem joined (h : Low q) : 65536 + (p - 55296) * 1024 + q - 56320 = join p q := by
  have := h.1
  rw [join_eq]
  omega

section units

variable {first second third fourth : UInt8}

theorem units_plain (h : ¬High (unit kind first second)) :
    units kind eof (first :: second :: text) rv = units kind eof text (utf8 (unit kind first second) rv) := by
  match text with
  | [] => exact if_neg (mt (high_iff _).mp h)
  | [_] => exact if_neg (mt (high_iff _).mp h)
  | _ :: _ :: _ => exact if_neg (mt (high_iff _).mp h)

theorem units_pair (h : High (unit kind first second)) (hlow : Low (unit kind third fourth)) :
    units kind eof (first :: second :: third :: fourth :: text) rv =
      units kind eof text (utf8 (join (unit kind first second) (unit kind third fourth)) rv) := by
  rw [units]
  simp only
  rw [if_pos ((high_iff _).mpr h),if_pos ((low_iff _).mpr hlow),joined hlow]

theorem units_lone (h : High (unit kind first second)) (hlow : ¬Low (unit kind third fourth)) :
    units kind eof (first :: second :: third :: fourth :: text) rv =
      units kind eof (third :: fourth :: text) (utf8 (unit kind first second) rv) := by
  rw [units]
  simp only
  rw [if_pos ((high_iff _).mpr h),if_neg (mt (low_iff _).mp hlow)]

theorem units_last (h : High (unit kind first second)) (hshort : text.length < 2) :
    units kind eof (first :: second :: text) rv = if eof = false then (rv,first :: second :: text)
      else units kind eof text (utf8 (unit kind first second) rv) := by
  match text,hshort with
  | [],_ => exact if_pos ((high_iff _).mpr h)
  | [_],_ => exact if_pos ((high_iff _).mpr h)

theorem units_short (hshort : text.length < 2) : units kind eof text rv = (rv,text) := by
  match text,hshort with
  | [],_ => rfl
  | [_],_ => rfl

theorem units_cases (kind : Kind) (text : List UInt8) :
    text.length < 2 ∨ ∃ first second rest,text = first :: second :: rest ∧
      (¬High (unit kind first second) ∨ High (unit kind first second) ∧
        (rest.length < 2 ∨ ∃ third fourth rest',rest = third :: fourth :: rest' ∧
          (Low (unit kind third fourth) ∨ ¬Low (unit kind third fourth)))) := by
  match text with
  | [] => exact .inl (by decide)
  | [_] => exact .inl (by simp)
  | first :: second :: rest =>
    refine .inr ⟨first,second,rest,rfl,?_⟩
    by_cases h : High (unit kind first second)
    · refine .inr ⟨h,?_⟩
      match rest with
      | [] => exact .inl (by decide)
      | [_] => exact .inl (by simp)
      | third :: fourth :: rest' => exact .inr ⟨third,fourth,rest',rfl,em _⟩
    · exact .inl h

theorem codeUnits_cons (text : List UInt8) :
    codeUnits kind (first :: second :: text) = unit kind first second :: codeUnits kind text := rfl

theorem fuse_plain {qs : List Nat} (h : ¬High p) : fuse (p :: qs) = p :: fuse qs :=
  fuse_cons_of_not fun _ _ _ hboth => h hboth.1

theorem fuse_pair {qs : List Nat} (h : High p) (hlow : Low q) : fuse (p :: q :: qs) = join p q :: fuse qs := by
  rw [fuse,if_pos ⟨h,hlow⟩]

theorem fuse_lone {qs : List Nat} (hlow : ¬Low q) : fuse (p :: q :: qs) = p :: fuse (q :: qs) := by
  rw [fuse,if_neg fun hboth => hlow hboth.2]

end units

-- the units of a text one character on, or where they stop
theorem units_step (kind : Kind) (eof : Bool) (text rv : List UInt8) :
    units kind eof text rv = (rv,text) ∧ (text.length < 2 ∨ eof = false ∧ text.length < 4) ∨
      ∃ code rest,rest.length < text.length ∧ units kind eof text rv = units kind eof rest (rv ++ encode code) ∧
        ∀ more,(eof = true → more = []) → bytes (fuse (codeUnits kind (text ++ more))) =
          encode code ++ bytes (fuse (codeUnits kind (rest ++ more))) := by
  obtain hshort | ⟨first,second,rest,rfl,hcase⟩ := units_cases kind text
  · exact .inl ⟨units_short hshort,.inl hshort⟩
  simp only [List.length_cons]
  obtain hplain | ⟨hhigh,hshort | ⟨third,fourth,rest,rfl,hlow | hlow⟩⟩ := hcase
  · refine .inr ⟨_,rest,by omega,by rw [units_plain hplain,utf8_encode],fun more _ => ?_⟩
    rw [List.cons_append,List.cons_append,codeUnits_cons,fuse_plain hplain,bytes_cons]
  · cases eof with
    | false => exact .inl ⟨by rw [units_last hhigh hshort,if_pos rfl],.inr ⟨rfl,by omega⟩⟩
    | true =>
      refine .inr ⟨_,rest,by omega,by rw [units_last hhigh hshort,if_neg (by decide),utf8_encode],
        fun more hmore => ?_⟩
      have hnot : ∀ r qs,codeUnits kind rest = r :: qs → ¬(High (unit kind first second) ∧ Low r) := by
        intro r qs hr hboth
        match rest,hshort with
        | [],_ => cases hr
        | [_],_ =>
          rw [← (List.cons.inj hr).1] at hboth
          exact absurd hboth.2 (by decide)
      rw [hmore rfl,List.append_nil,List.append_nil,codeUnits_cons,fuse_cons_of_not hnot,bytes_cons]
  · refine .inr ⟨_,rest,by simp only [List.length_cons]; omega,by rw [units_pair hhigh hlow,utf8_encode],
      fun more _ => ?_⟩
    simp only [List.cons_append,codeUnits_cons]
    rw [fuse_pair hhigh hlow,bytes_cons]
  · refine .inr ⟨_,third :: fourth :: rest,by simp only [List.length_cons]; omega,
      by rw [units_lone hhigh hlow,utf8_encode],fun more _ => ?_⟩
    simp only [List.cons_append,codeUnits_cons]
    rw [fuse_lone hlow,bytes_cons]

theorem units_waiting (kind : Kind) (more text rv : List UInt8) :
    rv ++ bytes (fuse (codeUnits kind (text ++ more))) =
      (units kind false text rv).1 ++ bytes (fuse (codeUnits kind ((units kind false text rv).2 ++ more))) := by
  obtain ⟨hstop,-⟩ | ⟨code,rest,hless,hunits,hbytes⟩ := units_step kind false text rv
  · rw [hstop]
  · rw [hunits,← units_waiting kind more rest (rv ++ encode code),hbytes more nofun,List.append_assoc]
termination_by text.length

theorem units_ended (kind : Kind) (text rv : List UInt8) :
    (units kind true text rv).2.length < 2 ∧ rv ++ bytes (fuse (codeUnits kind text)) =
      (units kind true text rv).1 ++ bytes (fuse (codeUnits kind (units kind true text rv).2)) := by
  obtain ⟨hstop,hshort | ⟨heof,-⟩⟩ | ⟨code,rest,hless,hunits,hbytes⟩ := units_step kind true text rv
  · rw [hstop]
    exact ⟨hshort,rfl⟩
  · cases heof
  · have hwhole := hbytes [] fun _ => rfl
    rw [List.append_nil,List.append_nil] at hwhole
    rw [hunits,hwhole,← List.append_assoc]
    exact units_ended kind rest (rv ++ encode code)
termination_by text.length

theorem singles_whole (kind : Kind) (text rv : List UInt8) : singles kind text rv =
    rv ++ bytes (text.map fun byte => if kind = .as ∧ 127 < byte.toNat then 65533 else byte.toNat) := by
  induction text generalizing rv with
  | nil => rw [singles,List.map_nil,bytes_nil,List.append_nil]
  | cons byte text ih => rw [singles,ih,List.map_cons,bytes_cons,utf8_encode,List.append_assoc]

theorem transcode_wise {s : BytesToUtf8} (h : s.byteWise = true) (text : List UInt8) :
    transcode s.kind text = singles s.kind text [] := by
  rw [singles_whole,List.nil_append,transcode]
  rw [BytesToUtf8.byteWise] at h
  cases hk : s.kind <;> simp_all [codePoints]

theorem transcode_units {s : BytesToUtf8} (h : s.byteWise = false) (text : List UInt8) :
    transcode s.kind text = bytes (fuse (codeUnits s.kind text)) := by
  rw [BytesToUtf8.byteWise] at h
  cases hk : s.kind <;> simp_all [codePoints,transcode]

theorem codeUnits_ne_nil (h : text ≠ []) : codeUnits kind text ≠ [] := by
  match text with
  | [] => exact absurd rfl h
  | [_] => exact List.cons_ne_nil _ _
  | _ :: _ :: _ => exact List.cons_ne_nil _ _

theorem bytes_ne_nil {ps : List Nat} (h : ps ≠ []) : bytes ps ≠ [] := by
  match ps with
  | [] => exact absurd rfl h
  | p :: ps =>
    rw [bytes_cons]
    exact List.append_ne_nil_of_left_ne_nil (encode_ne_nil p) _

theorem fuse_ne_nil {ps : List Nat} (h : ps ≠ []) : fuse ps ≠ [] := by
  match ps with
  | [] => exact absurd rfl h
  | p :: ps =>
    obtain ⟨r,rest,hr,-⟩ := fuse_head p ps
    rw [hr]
    exact List.cons_ne_nil _ _

theorem transcode_nil (kind : Kind) : transcode kind [] = [] := by
  cases kind <;> rfl

theorem transcode_ne_nil (h : text ≠ []) : transcode kind text ≠ [] := by
  refine bytes_ne_nil ?_
  cases kind with
  | l1 => exact mt List.map_eq_nil_iff.mp h
  | as => exact mt List.map_eq_nil_iff.mp h
  | le => exact fuse_ne_nil (codeUnits_ne_nil h)
  | be => exact fuse_ne_nil (codeUnits_ne_nil h)

theorem units_extends (kind : Kind) (eof : Bool) (text rv : List UInt8) :
    ∃ out,(units kind eof text rv).1 = rv ++ out := by
  obtain ⟨hstop,-⟩ | ⟨code,rest,hless,hunits,-⟩ := units_step kind eof text rv
  · rw [hstop]
    exact ⟨[],(List.append_nil rv).symm⟩
  · obtain ⟨out,hout⟩ := units_extends kind eof rest (rv ++ encode code)
    rw [hunits,hout,List.append_assoc]
    exact ⟨_,rfl⟩
termination_by text.length

theorem units_ne_nil (kind : Kind) (eof : Bool) (h : 4 ≤ text.length) : (units kind eof text []).1 ≠ [] := by
  obtain ⟨-,hshort⟩ | ⟨code,rest,-,hunits,-⟩ := units_step kind eof text []
  · omega
  · obtain ⟨out,hout⟩ := units_extends kind eof rest ([] ++ encode code)
    rw [hunits,hout,List.nil_append]
    exact List.append_ne_nil_of_left_ne_nil (encode_ne_nil code) _

end whole

namespace BytesToUtf8

variable {s t : BytesToUtf8} {rv : List UInt8}

def rest (s : BytesToUtf8) : List UInt8 := transcode s.kind (s.pending ++ s.source.flatten)

structure Ready (s : BytesToUtf8) : Prop where
  chunks : [] ∉ s.source
  ended : s.eof = true → s.source = []

inductive Filled (s : BytesToUtf8) : BytesToUtf8 → Prop
  | ended (h : s.eof = true) : Filled s s
  | enough (h : s.byteWise = false) (hfour : 4 ≤ s.pending.length) : Filled s s
  | ends (h : s.eof = false) (hsource : s.source = []) : Filled s {s with eof := true}
  | chunk (h : s.eof = false) {chunk : List UInt8} {source : List (List UInt8)} (hchunk : chunk ≠ [])
      (hsource : s.source = chunk :: source) : Filled s {s with source,pending := s.pending ++ chunk}

theorem fill_filled (h : s.Ready) : Filled s s.fill := by
  rw [fill]
  by_cases hask : s.eof = false ∧ (s.pending.length < 4 ∨ s.byteWise = true)
  · rw [if_pos hask]
    split
    · next hsource => exact .ends hask.1 hsource
    · next hsource => exact absurd (hsource ▸ List.mem_cons_self) h.chunks
    · next chunk source hne hsource => exact .chunk hask.1 hne hsource
  · rw [if_neg hask]
    cases heof : s.eof with
    | true => exact .ended heof
    | false =>
      refine .enough ?_ ?_
      · simp_all
      · by_contra hfew
        exact hask ⟨heof,.inl (by omega)⟩

theorem Filled.ready (hf : Filled s t) (h : s.Ready) : t.Ready := by
  cases hf with
  | ended _ => exact h
  | enough _ _ => exact h
  | ends _ hsource => exact ⟨h.chunks,fun _ => hsource⟩
  | chunk heof _ hsource =>
    refine ⟨fun hmem => h.chunks (hsource ▸ List.mem_cons_of_mem _ hmem),fun he => ?_⟩
    exact absurd he (by simp [heof])

theorem Filled.rest (hf : Filled s t) : t.rest = s.rest := by
  cases hf with
  | ended _ => rfl
  | enough _ _ => rfl
  | ends _ _ => rfl
  | chunk _ _ hsource => rw [BytesToUtf8.rest,BytesToUtf8.rest,hsource,List.flatten_cons,List.append_assoc]

theorem Filled.kind (hf : Filled s t) : t.kind = s.kind := by
  cases hf <;> rfl

theorem convert_wise (h : s.byteWise = true) : s.convert = (transcode s.kind s.pending,[]) := by
  rw [convert,if_pos h,transcode_wise h]

theorem convert_waiting (h : s.byteWise = false) (heof : s.eof = false) :
    s.convert = units s.kind false s.pending [] := by
  rw [convert,if_neg (by simp [h]),heof]
  exact if_neg fun hboth => absurd hboth.1 (by decide)

theorem convert_ended (heof : s.eof = true) : s.convert = (transcode s.kind s.pending,[]) := by
  cases hwise : s.byteWise with
  | true => exact convert_wise hwise
  | false =>
    obtain ⟨hshort,hwhole⟩ := units_ended s.kind s.pending []
    rw [convert,if_neg (by simp [hwise]),heof,transcode_units hwise]
    rw [List.nil_append] at hwhole
    rw [hwhole]
    generalize units s.kind true s.pending [] = r at hshort
    obtain ⟨rv,rest⟩ := r
    match rest,hshort with
    | [],_ => simp [codeUnits,Wtf8.fuse]
    | [_],_ => simp [codeUnits,Wtf8.fuse,utf8_encode]

theorem convert_rest (h : s.Ready) : s.rest = s.convert.1 ++ {s with pending := s.convert.2}.rest := by
  cases hwise : s.byteWise with
  | true =>
    rw [convert_wise hwise,rest,rest]
    rw [transcode_wise hwise,transcode_wise hwise]
    change _ = _ ++ transcode s.kind _
    rw [transcode_wise hwise]
    simp only [singles_whole,List.nil_append,List.map_append,Wtf8.bytes_append]
  | false =>
    cases heof : s.eof with
    | true =>
      have hsource := h.ended heof
      rw [convert_ended heof,rest,rest,hsource,List.flatten_nil,List.append_nil]
      exact (congrArg _ (transcode_nil s.kind)).trans (List.append_nil _) |>.symm
    | false =>
      have hwhole := units_waiting s.kind s.source.flatten s.pending []
      rw [convert_waiting hwise heof,rest,rest,transcode_units hwise]
      change _ = _ ++ transcode s.kind _
      rw [transcode_units hwise,← hwhole,List.nil_append]

theorem convert_ne_nil (hpending : s.pending ≠ [])
    (h : s.eof = true ∨ s.byteWise = true ∨ 4 ≤ s.pending.length) : s.convert.1 ≠ [] := by
  cases heof : s.eof with
  | true =>
    rw [convert_ended heof]
    exact transcode_ne_nil hpending
  | false =>
    cases hwise : s.byteWise with
    | true =>
      rw [convert_wise hwise]
      exact transcode_ne_nil hpending
    | false =>
      rw [convert_waiting hwise heof]
      exact units_ne_nil s.kind false (by simpa [heof,hwise] using h)

structure Answers (s : BytesToUtf8) (rv : List UInt8) (t : BytesToUtf8) : Prop where
  ready : t.Ready
  kind : t.kind = s.kind
  rest : s.rest = rv ++ t.rest
  last : rv = [] → s.rest = []

theorem nextLoop_answers (n : Nat) : ∀ {s : BytesToUtf8},s.Ready →
    s.source.length + (if s.eof = true then 0 else 1) < n → ∃ rv t,nextLoop n s = some (rv,t) ∧ Answers s rv t := by
  induction n with
  | zero => exact fun _ hn => absurd hn (Nat.not_lt_zero _)
  | succ n ih =>
    intro s h hn
    have hfilled := fill_filled h
    have hready := hfilled.ready h
    have hrest := hfilled.rest
    have hkind := hfilled.kind
    rw [nextLoop]
    simp only
    by_cases hempty : s.fill.pending = []
    · have hended : s.fill.eof = true := by
        revert hempty
        generalize s.fill = t at hfilled
        intro hempty
        cases hfilled with
        | ended heof => exact heof
        | enough _ hfour => simp [hempty] at hfour
        | ends _ _ => rfl
        | chunk _ hchunk _ => exact absurd (List.append_eq_nil_iff.mp hempty).2 hchunk
      have hnone : s.fill.rest = [] := by
        rw [BytesToUtf8.rest,hempty,hready.ended hended]
        exact transcode_nil _
      rw [if_pos hempty]
      exact ⟨[],s.fill,rfl,hready,hkind,by rw [List.nil_append,hrest],fun _ => by rw [← hrest,hnone]⟩
    · rw [if_neg hempty]
      have hconvert := convert_rest hready
      have hnext : {s.fill with pending := s.fill.convert.2}.Ready := ⟨hready.chunks,hready.ended⟩
      by_cases hout : s.fill.convert.1 = []
      · have hwaits := mt (convert_ne_nil hempty) (not_not.mpr hout)
        have hgoes : s.fill.eof = false := by
          cases heof : s.fill.eof with
          | true => exact absurd (.inl heof) hwaits
          | false => rfl
        rw [if_neg (by simp [hgoes]),if_pos hout]
        have hless : s.fill.source.length + (if s.fill.eof = true then 0 else 1) < n := by
          generalize s.fill = t at hfilled hwaits hgoes
          cases hfilled with
          | ended heof => exact absurd heof (by simp [hgoes])
          | enough _ hfour => exact absurd (.inr (.inr hfour)) hwaits
          | ends _ _ => exact absurd hgoes (by simp)
          | chunk heof _ hsource =>
            rw [hsource] at hn
            simp only [List.length_cons,heof] at hn ⊢
            omega
        obtain ⟨rv,t,hloop,hanswers⟩ := ih hnext hless
        rw [hout,List.nil_append] at hconvert
        refine ⟨rv,t,hloop,hanswers.ready,hanswers.kind.trans hkind,?_,fun hrv => ?_⟩
        · rw [← hrest,hconvert,hanswers.rest]
        · rw [← hrest,hconvert,hanswers.last hrv]
      · rw [if_neg (by simp [hout]),if_neg hout]
        refine ⟨_,_,rfl,hnext,hkind,?_,fun hrv => absurd hrv hout⟩
        rw [← hrest,hconvert]

theorem next_answers (h : s.Ready) : ∃ rv t,s.next = some (rv,t) ∧ Answers s rv t := by
  refine nextLoop_answers _ h ?_
  split <;> omega

inductive Calls (s : BytesToUtf8) : List (List UInt8) → BytesToUtf8 → Prop
  | none : Calls s [] s
  | next {outs : List (List UInt8)} {t u : BytesToUtf8} {rv : List UInt8} (h : Calls s outs t)
      (hnext : t.next = some (rv,u)) : Calls s (outs ++ [rv]) u

theorem Calls.answers {outs : List (List UInt8)} (hcalls : Calls s outs t) (h : s.Ready) :
    t.Ready ∧ t.kind = s.kind ∧ s.rest = outs.flatten ++ t.rest := by
  induction hcalls with
  | none => exact ⟨h,rfl,rfl⟩
  | next _ hnext ih =>
    obtain ⟨hready,hkind,hrest⟩ := ih
    obtain ⟨rv,u,hu,hanswers⟩ := next_answers hready
    obtain ⟨rfl,rfl⟩ := Prod.mk.inj (Option.some.inj (hu.symm.trans hnext))
    refine ⟨hanswers.ready,hanswers.kind.trans hkind,?_⟩
    rw [hrest,hanswers.rest,List.flatten_append,List.flatten_singleton,List.append_assoc]

theorem calls_end (n : Nat) : ∀ {t : BytesToUtf8} {outs : List (List UInt8)},
    s.Ready → Calls s outs t → [] ∉ outs → t.rest.length ≤ n →
    ∃ outs t u,Calls s outs t ∧ [] ∉ outs ∧ t.next = some ([],u) := by
  induction n with
  | zero =>
    intro t outs h hcalls hfull hn
    obtain ⟨rv,u,hu,hanswers⟩ := next_answers (hcalls.answers h).1
    have hnone : rv = [] := by
      have hrest := hanswers.rest
      rw [List.eq_nil_of_length_eq_zero (Nat.le_zero.mp hn)] at hrest
      exact (List.append_eq_nil_iff.mp hrest.symm).1
    exact ⟨outs,t,u,hcalls,hfull,hnone ▸ hu⟩
  | succ n ih =>
    intro t outs h hcalls hfull hn
    obtain ⟨rv,u,hu,hanswers⟩ := next_answers (hcalls.answers h).1
    by_cases hnone : rv = []
    · exact ⟨outs,t,u,hcalls,hfull,hnone ▸ hu⟩
    · have hpos := List.length_pos_iff.mpr hnone
      have hlen := congrArg List.length hanswers.rest
      rw [List.length_append] at hlen
      refine ih h (hcalls.next hu) ?_ (by omega)
      rw [List.mem_append,List.mem_singleton]
      rintro (hmem | hmem)
      · exact hfull hmem
      · exact hnone hmem.symm

end BytesToUtf8

section transcoding

variable {upper : String → String} {chunks : List (List UInt8)} {head : List UInt8} {encoding : String}
  {s : BytesToUtf8}

theorem transcoding_exact (hs : create upper chunks head encoding = some s) (h : [] ∉ chunks) :
    kindOf upper encoding = some s.kind ∧
    (∀ outs t,BytesToUtf8.Calls s outs t → ∃ rv u,t.next = some (rv,u) ∧
      (rv = [] → outs.flatten = transcode s.kind (head ++ chunks.flatten))) ∧
    ∃ outs t u,BytesToUtf8.Calls s outs t ∧ [] ∉ outs ∧ t.next = some ([],u) ∧
      outs.flatten = transcode s.kind (head ++ chunks.flatten) := by
  rw [create] at hs
  obtain ⟨kind,hkind,rfl⟩ := Option.map_eq_some_iff.mp hs
  have hready : BytesToUtf8.Ready {source := chunks,pending := head,kind} := ⟨h,by simp⟩
  have hwhole : ∀ outs t,BytesToUtf8.Calls {source := chunks,pending := head,kind} outs t →
      ∃ rv u,t.next = some (rv,u) ∧ (rv = [] → outs.flatten = transcode kind (head ++ chunks.flatten)) := by
    intro outs t hcalls
    obtain ⟨ht,-,hrest⟩ := hcalls.answers hready
    obtain ⟨rv,u,hu,hanswers⟩ := BytesToUtf8.next_answers ht
    refine ⟨rv,u,hu,fun hnone => ?_⟩
    rw [hanswers.last hnone,List.append_nil] at hrest
    exact hrest.symm
  refine ⟨hkind,hwhole,?_⟩
  obtain ⟨outs,t,u,hcalls,hfull,hu⟩ := BytesToUtf8.calls_end _ hready .none List.not_mem_nil le_rfl
  obtain ⟨rv,v,hv,hlast⟩ := hwhole outs t hcalls
  obtain ⟨rfl,-⟩ := Prod.mk.inj (Option.some.inj (hv.symm.trans hu))
  exact ⟨outs,t,u,hcalls,hfull,hu,hlast rfl⟩

theorem transcoding_exact_pair : ∃ s,create id [[0x3D],[0xD8,0x00],[0xDE]] [] "UTF-16LE" = some s ∧
    kindOf id "UTF-16LE" = some s.kind ∧
    (∀ outs t,BytesToUtf8.Calls s outs t → ∃ rv u,t.next = some (rv,u) ∧
      (rv = [] → outs.flatten = transcode s.kind ([] ++ [[0x3D],[0xD8,0x00],[0xDE]].flatten))) ∧
    ∃ outs t u,BytesToUtf8.Calls s outs t ∧ [] ∉ outs ∧ t.next = some ([],u) ∧
      outs.flatten = transcode s.kind ([] ++ [[0x3D],[0xD8,0x00],[0xDE]].flatten) :=
  ⟨_,rfl,transcoding_exact rfl (by decide)⟩

example : transcode .le [0x3D,0xD8,0x00,0xDE] = [0xF0,0x9F,0x98,0x80] := by decide

end transcoding

end OpenSteamgate.Sxml
