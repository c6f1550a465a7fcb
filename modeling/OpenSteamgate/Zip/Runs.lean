import OpenSteamgate.Zip.Content

namespace OpenSteamgate.Zip

variable {σ : Type} {src : Source σ} {entry : Entry} {r r' : Reader σ} {out : List UInt8}

def Source.ofBytes (data : List UInt8) (h : data.length < 2147483648) : Source Unit where
  archive := data
  size := fun s => (.ok data.length,s)
  read := fun s pos len =>
    if data.length < pos then (.error "read outside the archive",s)
    else (.ok ((data.drop pos).take len),s)
  archive_lt := h
  size_eq := fun s n s' hn => (Except.ok.inj (Prod.mk.inj hn).1).symm
  read_eq := fun s pos len d s' hd => by
    split at hd
    · cases hd
    · exact (Except.ok.inj (Prod.mk.inj hd).1).symm

namespace Reader

def reads (src : Source σ) (r : Reader σ) : List (Nat × Nat) → List (Result (List UInt8)) × Reader σ
  | [] => ([],r)
  | (max,maxOut) :: limits =>
      let (answer,r) := r.read src max maxOut
      let (answers,r) := r.reads src limits
      (answer :: answers,r)

def piece : Result (List UInt8) → List UInt8
  | .ok data => data
  | .error _ => []

def returned (answers : List (Result (List UInt8))) : List UInt8 := answers.flatMap piece

def Own (answer : Result (List UInt8)) : Prop := ∃ reason, answer = fail reason

inductive Status (src : Source σ) (entry : Entry) (r : Reader σ) (out : List UInt8) : Prop
  | reading (fed : List UInt8) : Reading src entry r fed out out → Status src entry r out
  | ended : r.opened = true → r.eof = true → entry.content src.archive = some out →
      Status src entry r out

theorem Status.with_source (h : Status src entry r out) (s : σ) :
    Status src entry { r with source := s } out := by
  cases h with
  | reading fed hr =>
    exact .reading fed ⟨hr.entry_eq,hr.opened,hr.unfinished,hr.pos,hr.left,hr.fed_eq,hr.produced,
      hr.bounded,hr.crc,hr.decoded⟩
  | ended ho he hc => exact .ended ho he hc

theorem read_ended (ho : r.opened = true) (he : r.eof = true) (max maxOut : Nat) :
    r.read src max maxOut = (.ok [],r) := by
  rw [read,if_neg (by rw [ho]; decide),if_pos he]

theorem read_closed (h : r.opened = false) (max maxOut : Nat) :
    r.read src max maxOut = (fail "no entry is open",r) := if_pos h

theorem Own.not_ok {data : List UInt8} : ¬Own (.ok data) := fun ⟨_,h⟩ => by cases h

theorem Own.not_source {reason : String} : ¬Own (.error (.raised (.source reason))) :=
  fun ⟨_,h⟩ => by cases h

theorem Status.read (h : Status src entry r out) (max maxOut : Nat) :
    (¬Own (r.read src max maxOut).1 ∧
        Status src entry (r.read src max maxOut).2 (out ++ piece (r.read src max maxOut).1)) ∨
      (Own (r.read src max maxOut).1 ∧ (r.read src max maxOut).2.opened = false ∧
        entry.content src.archive = none) := by
  cases h with
  | reading fed hr =>
    have hread := read_spec hr max maxOut
    generalize r.read src max maxOut = answer at hread
    cases hread with
    | passed reason s =>
      refine .inl ⟨Own.not_source,?_⟩
      rw [piece,List.append_nil]
      exact (Status.reading fed hr).with_source s
    | refused reason r' ho hc => exact .inr ⟨⟨reason,rfl⟩,ho,hc⟩
    | piece data raw r' hr' _ => exact .inl ⟨Own.not_ok,.reading _ hr'⟩
    | last raw r' ho he hc => exact .inl ⟨Own.not_ok,.ended ho he hc⟩
  | ended ho he hc =>
    rw [read_ended ho he]
    refine .inl ⟨Own.not_ok,?_⟩
    rw [piece,List.append_nil]
    exact .ended ho he hc

theorem reads_cons (r : Reader σ) (limit : Nat × Nat) (limits : List (Nat × Nat)) :
    r.reads src (limit :: limits) =
      ((r.read src limit.1 limit.2).1 :: ((r.read src limit.1 limit.2).2.reads src limits).1,
        ((r.read src limit.1 limit.2).2.reads src limits).2) := rfl

theorem reads_closed (h : r.opened = false) (limits : List (Nat × Nat)) :
    (r.reads src limits).2 = r := by
  induction limits with
  | nil => rfl
  | cons limit limits ih => rw [reads_cons,read_closed h,ih]

theorem Status.reads (h : Status src entry r out) (limits : List (Nat × Nat)) :
    ((∀ answer ∈ (r.reads src limits).1,¬Own answer) ∧
        Status src entry (r.reads src limits).2 (out ++ returned (r.reads src limits).1)) ∨
      ((∃ answer ∈ (r.reads src limits).1,Own answer) ∧ (r.reads src limits).2.opened = false ∧
        entry.content src.archive = none) := by
  induction limits generalizing r out with
  | nil =>
    refine .inl ⟨fun answer ha => (List.not_mem_nil ha).elim,?_⟩
    rw [Reader.reads,returned,List.flatMap_nil,List.append_nil]
    exact h
  | cons limit limits ih =>
    rw [reads_cons]
    rcases h.read limit.1 limit.2 with ⟨hnot,hs⟩ | ⟨hown,ho,hc⟩
    · rcases ih hs with ⟨hall,hs'⟩ | ⟨⟨answer,ha,hown⟩,ho,hc⟩
      · refine .inl ⟨List.forall_mem_cons.mpr ⟨hnot,hall⟩,?_⟩
        rw [returned,List.flatMap_cons,← List.append_assoc]
        exact hs'
      · exact .inr ⟨⟨answer,List.mem_cons_of_mem _ ha,hown⟩,ho,hc⟩
    · refine .inr ⟨⟨_,List.mem_cons_self,hown⟩,?_,hc⟩
      rw [reads_closed ho]
      exact ho

theorem Status.bounded (h : Status src entry r out) : out.length ≤ entry.size := by
  cases h with
  | reading fed hr => exact hr.bounded
  | ended ho he hc => exact (content_eq_some hc).2.2.1.le

theorem Status.eof (h : Status src entry r out) (he : r.isEof = true) :
    entry.content src.archive = some out := by
  cases h with
  | reading fed hr => exact absurd (he.symm.trans hr.unfinished) (by decide)
  | ended _ _ hc => exact hc

theorem reads_ended (ho : r.opened = true) (he : r.eof = true) (limits : List (Nat × Nat)) :
    (r.reads src limits).2.isEof = true := by
  induction limits with
  | nil => exact he
  | cons limit limits ih => rw [reads_cons,read_ended ho he,ih]

theorem reads_end {limits : List (Nat × Nat)} (h : Status src entry r out)
    (hlimits : ∀ limit ∈ limits,0 < limit.1 ∧ 0 < limit.2)
    (hok : ∀ answer ∈ (r.reads src limits).1,∃ data,answer = .ok data)
    (hlong : r.weight < limits.length) : (r.reads src limits).2.isEof = true := by
  induction limits generalizing r out with
  | nil => exact absurd hlong (Nat.not_lt_zero _)
  | cons limit limits ih =>
    rw [reads_cons] at hok ⊢
    obtain ⟨hfirst,hrest⟩ := List.forall_mem_cons.mp hok
    obtain ⟨hlimit,hlimits⟩ := List.forall_mem_cons.mp hlimits
    cases h with
    | reading fed hr =>
      have hread := read_spec hr limit.1 limit.2
      generalize r.read src limit.1 limit.2 = answer at hread hfirst hrest ⊢
      cases hread with
      | passed reason s => obtain ⟨data,hd⟩ := hfirst; cases hd
      | refused reason r' ho hc => obtain ⟨data,hd⟩ := hfirst; cases hd
      | piece data raw r' hr' hw =>
        refine ih (.reading _ hr') hlimits hrest ?_
        have hless : r'.weight < r.weight := hw hlimit.1 hlimit.2
        rw [List.length_cons] at hlong
        exact hless.trans_le (Nat.lt_succ_iff.mp hlong)
      | last raw r' ho he hc => exact reads_ended ho he limits
    | ended ho he hc =>
      rw [read_ended ho he]
      exact reads_ended ho he limits

inductive Call where
  | read (max maxOut : Nat)
  | openEntry (name : String)

def Call.run (src : Source σ) (r : Reader σ) : Call → Result (Option (List UInt8)) × Reader σ
  | .read max maxOut => ((r.read src max maxOut).1.map some,(r.read src max maxOut).2)
  | .openEntry name => ((r.openEntry src name).1.map fun _ => none,(r.openEntry src name).2)

def calls (src : Source σ) (r : Reader σ) : List Call → List (Result (Option (List UInt8)))
  | [] => []
  | call :: rest => (call.run src r).1 :: (call.run src r).2.calls src rest

theorem openEntry_opened {name : String} (h : ∀ u,(r.openEntry src name).1 ≠ .ok u) :
    (r.openEntry src name).2.opened = r.opened := by
  simp only [openEntry] at h ⊢
  split
  · rfl
  split
  · rfl
  split
  · rfl
  split
  · rfl
  split
  · rfl
  split
  · rfl
  · rename_i hfind henc hmethod _ _ _ hread hlen _ _ hpos
    refine (h () ?_).elim
    simp only [hfind,if_neg henc,if_neg hmethod,hread,if_neg hlen,hpos]

theorem calls_closed (h : r.opened = false) (rest : List Call)
    (hopen : .ok none ∉ r.calls src rest) (data : Option (List UInt8)) :
    .ok data ∉ r.calls src rest := by
  induction rest generalizing r with
  | nil => exact List.not_mem_nil
  | cons call rest ih =>
    rw [calls,List.mem_cons,not_or] at hopen ⊢
    cases call with
    | read max maxOut =>
      simp only [Call.run,read_closed h] at hopen ⊢
      exact ⟨fun hc => (by cases hc),ih h hopen.2⟩
    | openEntry name =>
      have herr : ∀ u,(r.openEntry src name).1 ≠ .ok u := fun u hu => by
        refine hopen.1 ?_
        simp only [Call.run,hu]
        rfl
      refine ⟨fun hc => ?_,ih ((openEntry_opened herr).trans h) hopen.2⟩
      simp only [Call.run] at hc
      generalize (r.openEntry src name).1 = answer at hc herr
      cases answer with
      | error e => cases hc
      | ok u => exact herr u rfl

theorem read_passed {out : List UInt8} (h : Status src entry r out) {max maxOut : Nat}
    {reason : String} (he : (r.read src max maxOut).1 = .error (.raised (.source reason))) :
    ∃ s,(r.read src max maxOut).2 = { r with source := s } := by
  cases h with
  | reading fed hr =>
    have hread := read_spec hr max maxOut
    generalize r.read src max maxOut = answer at hread he
    cases hread with
    | passed reason s => exact ⟨s,rfl⟩
    | refused reason r' ho hc => cases he
    | piece data raw r' hr' _ => cases he
    | last raw r' ho hf hc => cases he
  | ended ho hf hc =>
    rw [read_ended ho hf] at he
    cases he

theorem read_passed_closed (h : r.opened = false) {max maxOut : Nat} {reason : String} :
    (r.read src max maxOut).1 ≠ .error (.raised (.source reason)) := by
  rw [read_closed h]
  exact fun hc => by cases hc

theorem entry_exact (src : Source σ) {r₀ r : Reader σ} {name : String}
    (hopen : r₀.openEntry src name = (.ok (),r)) :
    (∀ limits, (∀ answer ∈ (r.reads src limits).1, ¬Own answer) →
        (returned (r.reads src limits).1).length ≤ r.entry.size ∧
          ((r.reads src limits).2.isEof = true →
            r.entry.content src.archive = some (returned (r.reads src limits).1))) ∧
      (∀ limits, (∃ answer ∈ (r.reads src limits).1, Own answer) →
        r.entry.content src.archive = none ∧
          ∀ rest, .ok none ∉ (r.reads src limits).2.calls src rest →
            ∀ data, .ok data ∉ (r.reads src limits).2.calls src rest) ∧
      (∀ limits max maxOut reason,
        ((r.reads src limits).2.read src max maxOut).1 = .error (.raised (.source reason)) →
          ∃ s, ((r.reads src limits).2.read src max maxOut).2 =
            { (r.reads src limits).2 with source := s }) ∧
      ∀ limits : List (Nat × Nat), (∀ limit ∈ limits, 1 ≤ limit.1 ∧ 1 ≤ limit.2) →
        (∀ answer ∈ (r.reads src limits).1, ∃ data, answer = .ok data) →
        r.weight < limits.length → (r.reads src limits).2.isEof = true := by
  have h : Status src r.entry r [] := .reading [] (openEntry_reading hopen)
  refine ⟨fun limits hall => ?_,fun limits hown => ?_,fun limits max maxOut reason he => ?_,
    fun limits hlimits hok hlong => reads_end h hlimits hok hlong⟩
  · rcases h.reads limits with ⟨-,hs⟩ | ⟨⟨answer,ha,hown⟩,-⟩
    · exact ⟨hs.bounded,hs.eof⟩
    · exact (hall answer ha hown).elim
  · rcases h.reads limits with ⟨hall,-⟩ | ⟨-,ho,hc⟩
    · obtain ⟨answer,ha,hown⟩ := hown
      exact (hall answer ha hown).elim
    · exact ⟨hc,fun rest hrest data => calls_closed ho rest hrest data⟩
  · rcases h.reads limits with ⟨-,hs⟩ | ⟨-,ho,-⟩
    · exact read_passed hs he
    · exact (read_passed_closed ho he).elim

section samples

def sampleArchive : List UInt8 :=
  lcLocal ++ List.replicate 22 0 ++ [1,0,0,0] ++ [0x61] ++ [0x68,0x69]

def sampleReader (s : σ) : Reader σ where
  source := s
  entries := [{ name := "a", compressedSize := 2, size := 2, crc32 := 0xD8932AAC#32 }]
  comment := ""

def sampleSource : Source Unit := .ofBytes sampleArchive (by decide)

def sampleOpen : Reader Unit := ((sampleReader ()).openEntry sampleSource "a").2

theorem sample_reads : (sampleOpen.reads sampleSource [(1,1),(1,1)]).1 = [.ok [0x68],.ok [0x69]] :=
  rfl

theorem entry_exact_sample : sampleOpen.entry.content sampleSource.archive = some [0x68,0x69] := by
  have hopen : (sampleReader ()).openEntry sampleSource "a" = (.ok (),sampleOpen) := rfl
  have h := (entry_exact sampleSource hopen).1 [(1,1),(1,1)] fun answer ha => by
    rw [sample_reads] at ha
    simp only [List.mem_cons,List.not_mem_nil,or_false] at ha
    rcases ha with rfl | rfl <;> exact Own.not_ok
  rw [sample_reads] at h
  exact h.2 rfl

def interruptedSource : Source Nat where
  archive := sampleArchive
  size := fun s => (.ok sampleArchive.length,s)
  read := fun s pos len =>
    if s = 1 then (.error "read interrupted",s + 1)
    else (.ok ((sampleArchive.drop pos).take len),s + 1)
  archive_lt := by decide
  size_eq := fun s n s' hn => (Except.ok.inj (Prod.mk.inj hn).1).symm
  read_eq := fun s pos len d s' hd => by
    split at hd
    · cases hd
    · exact (Except.ok.inj (Prod.mk.inj hd).1).symm

theorem data_after_passed : ¬∀ (σ : Type) (src : Source σ) (r₀ r : Reader σ) (name : String),
    r₀.openEntry src name = (.ok (),r) → ∀ max maxOut e, (r.read src max maxOut).1 = .error e →
      ∀ max' maxOut' data, ((r.read src max maxOut).2.read src max' maxOut').1 ≠ .ok data := by
  intro h
  exact h Nat interruptedSource (sampleReader 0) ((sampleReader 0).openEntry interruptedSource "a").2
    "a" rfl 1 1 (.raised (.source "read interrupted")) rfl 1 1 [0x68] rfl

end samples

end Reader

end OpenSteamgate.Zip
