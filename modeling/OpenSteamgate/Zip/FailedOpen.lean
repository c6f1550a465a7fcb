import OpenSteamgate.Zip.Runs

namespace OpenSteamgate.Zip.Reader

variable {σ : Type} {src : Source σ} {r : Reader σ} {entry e : Entry} {name : String}
  {out : List UInt8}

def Alike (src : Source σ) (r r' : Reader σ) : Prop :=
  ∀ limits, (r.reads src limits).1 = (r'.reads src limits).1 ∧
    (r.reads src limits).2.isEof = (r'.reads src limits).2.isEof

def spared (src : Source σ) (r : Reader σ) (name : String) : Reader σ :=
  { r with source := (r.openEntry src name).2.source }

def Fails (src : Source σ) (r : Reader σ) (name : String) : Prop :=
  (r.openEntry src name).1 ≠ .ok ()

def withEntry (r : Reader σ) (e : Entry) : Reader σ := { r with entry := e }

@[simp] theorem withEntry_entry : (r.withEntry e).entry = e := rfl

@[simp] theorem withEntry_isPaused : (r.withEntry e).isPaused = r.isPaused := rfl

theorem openEntry_missing (h : r.entries.find? (·.name == name) = none) :
    (r.openEntry src name).2 = r := by
  rw [openEntry,h]

theorem openEntry_failed (src : Source σ) (hfind : r.entries.find? (·.name == name) = some e)
    (hfail : r.Fails src name) :
    (r.openEntry src name).2 = (r.spared src name).withEntry e := by
  rw [Fails] at hfail
  simp only [spared,openEntry,hfind] at hfail ⊢
  split
  · rfl
  split
  · rfl
  split
  · rfl
  split
  · rfl
  split
  · rfl
  · rename_i henc hmethod _ _ _ hread hlen _ _ hpos
    refine (hfail ?_).elim
    simp only [if_neg henc,if_neg hmethod,hread,if_neg hlen,hpos]

theorem fetch_withEntry (src : Source σ) (r : Reader σ) (e : Entry) (max maxOut : Nat)
    (h : e.name = r.entry.name ∨ ¬Own (r.fetch src max maxOut).1) :
    (r.withEntry e).fetch src max maxOut =
      ((r.fetch src max maxOut).1,(r.fetch src max maxOut).2.withEntry e) := by
  have htake : (r.withEntry e).toTake max maxOut = r.toTake max maxOut := rfl
  simp only [fetch,withEntry_isPaused,htake] at h ⊢
  have hread : src.readPiece (r.withEntry e).source (r.withEntry e).pos (r.toTake max maxOut) =
      src.readPiece r.source r.pos (r.toTake max maxOut) := rfl
  split_ifs at h ⊢ with hp hzero
  · rfl
  · rfl
  rw [hread]
  generalize src.readPiece r.source r.pos (r.toTake max maxOut) = answer at h ⊢
  obtain ⟨answer,s⟩ := answer
  cases answer with
  | error e => rfl
  | ok data =>
    by_cases hshort : data.length < r.toTake max maxOut
    · simp only [if_pos hshort] at h ⊢
      have hname : e.name = r.entry.name := h.resolve_right fun hc => hc ⟨_,rfl⟩
      rw [withEntry_entry,hname]
      rfl
    · simp only [if_neg hshort]
      rfl

theorem decodePiece_withEntry (r : Reader σ) (e : Entry) (data : List UInt8) (maxOut : Nat)
    (h : e.name = r.entry.name ∨ ¬Own (r.decodePiece data maxOut).1) :
    (r.withEntry e).decodePiece data maxOut =
      ((r.decodePiece data maxOut).1,(r.decodePiece data maxOut).2.withEntry e) := by
  have hinflate : (r.withEntry e).inflate = r.inflate := rfl
  simp only [decodePiece,hinflate] at h ⊢
  generalize r.inflate = y at h ⊢
  cases y with
  | none => rfl
  | some y =>
    simp only at h ⊢
    generalize y.feed data maxOut = answer at h ⊢
    cases answer with
    | ok answer => rfl
    | error reason =>
      have hname : e.name = r.entry.name := h.resolve_right fun hc => hc ⟨_,rfl⟩
      simp only [withEntry_entry,hname]
      rfl

theorem finishInflate_withEntry
    (h : e.name = r.entry.name ∨ ∀ reason,r.finishInflate ≠ fail reason) :
    (r.withEntry e).finishInflate = r.finishInflate := by
  have hinflate : (r.withEntry e).inflate = r.inflate := rfl
  simp only [finishInflate,hinflate] at h ⊢
  generalize r.inflate = y at h ⊢
  cases y with
  | none => rfl
  | some y =>
    simp only at h ⊢
    generalize y.finish = answer at h ⊢
    cases answer with
    | ok answer => rfl
    | error reason =>
      have hname : e.name = r.entry.name := h.resolve_right fun hc => hc _ rfl
      simp only [withEntry_entry,hname]

def ended (r : Reader σ) : Reader σ := { r with eof := true, opened := false }

theorem finishEntry_withEntry (hsize : e.size = r.entry.size) (hcrc : e.crc32 = r.entry.crc32)
    (h : e.name = r.entry.name ∨ ∀ reason,r.finishEntry.1 ≠ fail reason) :
    (r.withEntry e).finishEntry = (r.finishEntry.1,r.finishEntry.2.withEntry e) := by
  have hended : ({ r.withEntry e with eof := true,opened := false } : Reader σ) = r.ended.withEntry e := rfl
  have hself : ({ r with eof := true,opened := false } : Reader σ) = r.ended := rfl
  simp only [finishEntry,hended,hself] at h ⊢
  have hfinish : (r.ended.withEntry e).finishInflate = r.ended.finishInflate := by
    refine finishInflate_withEntry (h.imp_right fun hnot reason hc => ?_)
    rw [hc] at hnot
    exact hnot reason rfl
  rw [hfinish]
  generalize r.ended.finishInflate = answer at h ⊢
  cases answer with
  | error e => rfl
  | ok u =>
    have hproduced : (r.withEntry e).produced = r.produced := rfl
    have hvalue : (r.withEntry e).crc = r.crc := rfl
    simp only [withEntry_entry,hsize,hcrc,hproduced,hvalue] at h ⊢
    split_ifs at h ⊢ with hlong hsum
    · have hname : e.name = r.entry.name := h.resolve_right fun hc => hc _ rfl
      rw [hname]
    · have hname : e.name = r.entry.name := h.resolve_right fun hc => hc _ rfl
      rw [hname]
    · rfl

def counted (r : Reader σ) (data : List UInt8) : Reader σ :=
  { r with crc := r.crc.update data, produced := r.produced + data.length }

theorem account_long {data : List UInt8} (h : r.entry.size < r.produced + data.length) :
    r.account data = (fail (r.entry.name ++ ": more than the " ++ toString r.entry.size ++
      " bytes the directory gives"),r.close) := if_pos h

theorem account_last {data : List UInt8} (h : ¬r.entry.size < r.produced + data.length)
    (hend : r.left = 0 ∧ r.isPaused = false) :
    r.account data =
      ((r.counted data).finishEntry.1.map fun _ => data,(r.counted data).finishEntry.2) := by
  rw [account,if_neg h,counted]
  refine (if_pos hend).trans ?_
  generalize finishEntry _ = answer
  obtain ⟨answer,r'⟩ := answer
  cases answer with
  | error e => rfl
  | ok u => rfl

theorem account_more {data : List UInt8} (h : ¬r.entry.size < r.produced + data.length)
    (hmore : ¬(r.left = 0 ∧ r.isPaused = false)) : r.account data = (.ok data,r.counted data) := by
  rw [account,if_neg h]
  exact if_neg hmore

theorem account_withEntry {data : List UInt8} (hsize : e.size = r.entry.size)
    (hcrc : e.crc32 = r.entry.crc32) (h : e.name = r.entry.name ∨ ¬Own (r.account data).1) :
    (r.withEntry e).account data = ((r.account data).1,(r.account data).2.withEntry e) := by
  have hlimit : (r.withEntry e).entry.size = r.entry.size := hsize
  by_cases hlong : r.entry.size < r.produced + data.length
  · rw [account_long hlong] at h ⊢
    have hname : e.name = r.entry.name := h.resolve_right fun hc => hc ⟨_,rfl⟩
    rw [account_long (hlimit.trans_lt hlong),withEntry_entry,hsize,hname]
    rfl
  have hlong' := fun hc => hlong (hlimit.symm.trans_lt hc)
  by_cases hend : r.left = 0 ∧ r.isPaused = false
  · rw [account_last hlong hend] at h ⊢
    rw [account_last hlong' hend]
    have hfinish : ((r.withEntry e).counted data).finishEntry =
        ((r.counted data).finishEntry.1,(r.counted data).finishEntry.2.withEntry e) := by
      refine finishEntry_withEntry (r := r.counted data) hsize hcrc
        (h.imp_right fun hnot reason hc => ?_)
      rw [hc] at hnot
      exact hnot ⟨reason,rfl⟩
    rw [hfinish]
  · rw [account_more hlong hend,account_more hlong' hend]
    rfl

theorem fetch_keeps (src : Source σ) (r : Reader σ) (max maxOut : Nat) : (r.fetch src max maxOut).2.entry = r.entry ∧
    (r.fetch src max maxOut).2.eof = r.eof := by
  simp only [fetch]
  split_ifs
  · exact ⟨rfl,rfl⟩
  · exact ⟨rfl,rfl⟩
  generalize src.readPiece r.source r.pos (r.toTake max maxOut) = answer
  obtain ⟨answer,s⟩ := answer
  cases answer with
  | error e => exact ⟨rfl,rfl⟩
  | ok data =>
    simp only
    split <;> exact ⟨rfl,rfl⟩

theorem decodePiece_keeps (data : List UInt8) (maxOut : Nat) :
    (r.decodePiece data maxOut).2.entry = r.entry ∧
      (r.decodePiece data maxOut).2.eof = r.eof := by
  simp only [decodePiece]
  split
  · exact ⟨rfl,rfl⟩
  · split <;> exact ⟨rfl,rfl⟩

theorem read_withEntry {max maxOut : Nat} (hsize : e.size = r.entry.size)
    (hcrc : e.crc32 = r.entry.crc32)
    (h : e.name = r.entry.name ∨ ¬Own (r.read src max maxOut).1) :
    (r.withEntry e).read src max maxOut =
      ((r.read src max maxOut).1,(r.read src max maxOut).2.withEntry e) := by
  have hentry := (fetch_keeps src r max maxOut).1
  have hfetch := fetch_withEntry src r e max maxOut
  by_cases ho : r.opened = false
  · rw [read_closed ho,read_closed (r := r.withEntry e) ho]
  by_cases he : r.eof = true
  · have ho := (Bool.not_eq_false _).mp ho
    rw [read_ended ho he,read_ended (r := r.withEntry e) ho he]
  rw [read,if_neg (show ¬(r.withEntry e).opened = false from ho),
    if_neg (show ¬(r.withEntry e).eof = true from he)]
  simp only [read,if_neg ho,if_neg he] at h ⊢
  have hfetch := hfetch (h.imp_right fun hnot hown => by
    obtain ⟨reason,hreason⟩ := hown
    rw [show r.fetch src max maxOut = (fail reason,(r.fetch src max maxOut).2) from
      Prod.ext hreason rfl] at hnot
    exact hnot ⟨reason,rfl⟩)
  rw [hfetch]
  generalize r.fetch src max maxOut = answer at h hentry ⊢
  obtain ⟨answer,r'⟩ := answer
  cases answer with
  | error e => rfl
  | ok data =>
    have hdentry := (r'.decodePiece_keeps data maxOut).1
    have hdecode := decodePiece_withEntry r' e data maxOut
    simp only at h hentry ⊢
    rw [← hentry] at hsize hcrc h
    have hdecode := hdecode (h.imp_right fun hnot hown => by
      obtain ⟨reason,hreason⟩ := hown
      rw [show r'.decodePiece data maxOut = (fail reason,(r'.decodePiece data maxOut).2) from
        Prod.ext hreason rfl] at hnot
      exact hnot ⟨reason,rfl⟩)
    rw [hdecode]
    generalize r'.decodePiece data maxOut = answer at h hdentry ⊢
    obtain ⟨answer,r''⟩ := answer
    cases answer with
    | error e => rfl
    | ok raw =>
      simp only at h hdentry ⊢
      rw [← hdentry] at hsize hcrc h
      exact account_withEntry hsize hcrc h

theorem finishEntry_passed (h : r.finishEntry.1 = .ok ()) :
    r.produced = r.entry.size ∧ r.crc.value = r.entry.crc32 ∧
      r.finishEntry.2 = { r.ended with opened := true } := by
  have hself : ({ r with eof := true,opened := false } : Reader σ) = r.ended := rfl
  simp only [finishEntry,hself] at h ⊢
  generalize r.ended.finishInflate = answer at h ⊢
  cases answer with
  | error e => cases h
  | ok u =>
    simp only at h ⊢
    split_ifs at h ⊢ with hsize hcrc
    · cases h
    · cases h
    · exact ⟨not_not.mp hsize,not_not.mp hcrc,rfl⟩

theorem account_both {data piece : List UInt8} (h : (r.account data).1 = .ok piece)
    (h' : ((r.withEntry e).account data).1 = .ok piece) :
    ((r.withEntry e).account data).2 = (r.account data).2.withEntry e ∧
      ((r.account data).2.eof = true → r.eof = true ∨
        e.size = r.entry.size ∧ e.crc32 = r.entry.crc32) := by
  by_cases hlong : r.entry.size < r.produced + data.length
  · rw [account_long hlong] at h
    cases h
  by_cases hlong' : (r.withEntry e).entry.size < (r.withEntry e).produced + data.length
  · rw [account_long hlong'] at h'
    cases h'
  by_cases hend : r.left = 0 ∧ r.isPaused = false
  · have hend' : (r.withEntry e).left = 0 ∧ (r.withEntry e).isPaused = false := hend
    rw [account_last hlong hend] at h ⊢
    rw [account_last hlong' hend'] at h' ⊢
    have hpass : (r.counted data).finishEntry.1 = .ok () := by
      generalize (r.counted data).finishEntry.1 = answer at h
      cases answer with
      | error e => cases h
      | ok u => rfl
    have hpass' : ((r.withEntry e).counted data).finishEntry.1 = .ok () := by
      generalize ((r.withEntry e).counted data).finishEntry.1 = answer at h'
      cases answer with
      | error e => cases h'
      | ok u => rfl
    obtain ⟨hsize,hcrc,hstate⟩ := finishEntry_passed hpass
    obtain ⟨hsize',hcrc',hstate'⟩ := finishEntry_passed hpass'
    refine ⟨?_,fun _ => .inr ⟨hsize'.symm.trans hsize,hcrc'.symm.trans hcrc⟩⟩
    rw [hstate,hstate']
    rfl
  · rw [account_more hlong hend,account_more hlong' hend]
    exact ⟨rfl,.inl⟩

theorem read_both {max maxOut : Nat} {piece : List UInt8} (ho : r.opened = true)
    (he : r.eof = false) (h : (r.read src max maxOut).1 = .ok piece)
    (h' : ((r.withEntry e).read src max maxOut).1 = .ok piece) :
    ((r.withEntry e).read src max maxOut).2 = (r.read src max maxOut).2.withEntry e ∧
      ((r.read src max maxOut).2.eof = true → e.size = r.entry.size ∧ e.crc32 = r.entry.crc32) := by
  have hkeeps := fetch_keeps src r max maxOut
  have hfetch := fetch_withEntry src r e max maxOut
  have ho : ¬r.opened = false := by rw [ho]; decide
  have he' : ¬r.eof = true := by rw [he]; decide
  rw [read,if_neg (show ¬(r.withEntry e).opened = false from ho),
    if_neg (show ¬(r.withEntry e).eof = true from he')] at h' ⊢
  simp only [read,if_neg ho,if_neg he'] at h ⊢
  generalize r.fetch src max maxOut = answer at h hfetch hkeeps ⊢
  obtain ⟨answer,r'⟩ := answer
  cases answer with
  | error e => cases h
  | ok data =>
    rw [hfetch (.inr Own.not_ok)] at h' ⊢
    have hkeeps' := r'.decodePiece_keeps data maxOut
    have hdecode := decodePiece_withEntry r' e data maxOut
    simp only at h h' hkeeps ⊢
    generalize r'.decodePiece data maxOut = answer at h hdecode hkeeps' ⊢
    obtain ⟨answer,r''⟩ := answer
    cases answer with
    | error e => cases h
    | ok raw =>
      rw [hdecode (.inr Own.not_ok)] at h' ⊢
      simp only at h h' hkeeps' ⊢
      obtain ⟨hstate,hend⟩ := account_both h h'
      rw [hkeeps'.1,hkeeps'.2,hkeeps.1,hkeeps.2] at hend
      exact ⟨hstate,fun hc => (hend hc).resolve_left he'⟩

theorem finishEntry_entry : r.finishEntry.2.entry = r.entry := by
  simp only [finishEntry]
  generalize finishInflate _ = answer
  cases answer with
  | error e => rfl
  | ok u =>
    simp only
    split_ifs <;> rfl

theorem account_entry (data : List UInt8) : (r.account data).2.entry = r.entry := by
  by_cases hlong : r.entry.size < r.produced + data.length
  · rw [account_long hlong]
    rfl
  by_cases hend : r.left = 0 ∧ r.isPaused = false
  · rw [account_last hlong hend]
    exact finishEntry_entry
  · rw [account_more hlong hend]
    rfl

theorem read_entry (src : Source σ) (r : Reader σ) (max maxOut : Nat) : (r.read src max maxOut).2.entry = r.entry := by
  have hkeeps := (fetch_keeps src r max maxOut).1
  simp only [read]
  split_ifs
  · rfl
  · rfl
  generalize r.fetch src max maxOut = answer at hkeeps ⊢
  obtain ⟨answer,r'⟩ := answer
  cases answer with
  | error e => exact hkeeps
  | ok data =>
    have hkeeps' := (r'.decodePiece_keeps data maxOut).1
    simp only at hkeeps ⊢
    generalize r'.decodePiece data maxOut = answer at hkeeps' ⊢
    obtain ⟨answer,r''⟩ := answer
    cases answer with
    | error e => exact hkeeps'.trans hkeeps
    | ok raw => exact (account_entry raw).trans (hkeeps'.trans hkeeps)

theorem reads_withEntry (limits : List (Nat × Nat)) (hsize : e.size = r.entry.size)
    (hcrc : e.crc32 = r.entry.crc32)
    (h : e.name = r.entry.name ∨ ∀ answer ∈ (r.reads src limits).1,¬Own answer) :
    (r.withEntry e).reads src limits =
      ((r.reads src limits).1,(r.reads src limits).2.withEntry e) := by
  induction limits generalizing r with
  | nil => rfl
  | cons limit limits ih =>
    rw [reads_cons] at h ⊢
    have hentry := read_entry src r limit.1 limit.2
    rw [reads_cons,read_withEntry hsize hcrc
      (h.imp_right fun hnot => hnot _ List.mem_cons_self)]
    rw [← hentry] at hsize hcrc
    rw [ih hsize hcrc (h.imp (fun hname => hname.trans (congrArg Entry.name hentry).symm) fun hnot answer ha =>
      hnot answer (List.mem_cons_of_mem _ ha))]

theorem reads_idle (limits : List (Nat × Nat)) (h : r.opened = false ∨ r.eof = true) :
    (r.withEntry e).reads src limits =
      ((r.reads src limits).1,(r.reads src limits).2.withEntry e) := by
  induction limits with
  | nil => rfl
  | cons limit limits ih =>
    rw [reads_cons,reads_cons]
    by_cases ho : r.opened = false
    · rw [read_closed ho,read_closed (r := r.withEntry e) ho,ih]
    · have ho := (Bool.not_eq_false _).mp ho
      have he := h.resolve_left (by rw [ho]; decide)
      rw [read_ended ho he,read_ended (r := r.withEntry e) ho he,ih]

theorem opened_of_read {max maxOut : Nat} {piece : List UInt8}
    (h : (r.read src max maxOut).1 = .ok piece) : r.opened = true := by
  by_contra ho
  rw [read_closed ((Bool.not_eq_true _).mp ho)] at h
  cases h

theorem reads_both (limits : List (Nat × Nat)) (he : r.eof = false)
    (hok : ∀ answer ∈ (r.reads src limits).1,∃ data,answer = .ok data)
    (hsame : (r.reads src limits).1 = ((r.withEntry e).reads src limits).1)
    (hend : (r.reads src limits).2.isEof = true) :
    e.size = r.entry.size ∧ e.crc32 = r.entry.crc32 := by
  induction limits generalizing r with
  | nil => exact absurd (he.symm.trans hend) (by decide)
  | cons limit limits ih =>
    rw [reads_cons] at hok hend
    rw [reads_cons,reads_cons,List.cons.injEq] at hsame
    obtain ⟨⟨data,hdata⟩,hrest⟩ := List.forall_mem_cons.mp hok
    obtain ⟨hstate,hdone⟩ :=
      read_both (opened_of_read hdata) he hdata (hsame.1.symm.trans hdata)
    have hentry := read_entry src r limit.1 limit.2
    by_cases hlast : (r.read src limit.1 limit.2).2.eof = true
    · exact hdone hlast
    · rw [hstate] at hsame
      rw [← hentry]
      exact ih ((Bool.not_eq_true _).mp hlast) hrest hsame.2 hend

def Answering (src : Source σ) : Prop :=
  ∀ s pos len, pos ≤ src.archive.length → ∃ data, (src.read s pos len).1 = .ok data

theorem Answering.fetch (hsrc : Answering src) (hpos : 0 < r.left → r.pos ≤ src.archive.length)
    (max maxOut : Nat) (reason : String) :
    (r.fetch src max maxOut).1 ≠ .error (.raised (.source reason)) := by
  simp only [Reader.fetch]
  split_ifs
  · exact fun hc => by cases hc
  · exact fun hc => by cases hc
  rename_i hzero
  have hleft := (Nat.pos_of_ne_zero hzero).trans_le (r.toTake_le max maxOut)
  obtain ⟨data,hdata⟩ := hsrc r.source r.pos (r.toTake max maxOut) (hpos hleft)
  rw [Source.readPiece]
  generalize src.read r.source r.pos (r.toTake max maxOut) = answer at hdata
  obtain ⟨answer,s⟩ := answer
  cases hdata
  simp only
  split <;> exact fun hc => by cases hc

theorem finishEntry_not_source (r : Reader σ) (reason : String) :
    r.finishEntry.1 ≠ .error (.raised (.source reason)) := by
  simp only [finishEntry,finishInflate]
  split
  · rename_i herror
    split at herror
    · cases herror
    · split at herror <;> cases herror
      exact fun hc => by cases hc
  · split_ifs <;> exact fun hc => by cases hc

theorem Answering.read (hsrc : Answering src) (hpos : 0 < r.left → r.pos ≤ src.archive.length)
    (max maxOut : Nat) (reason : String) :
    (r.read src max maxOut).1 ≠ .error (.raised (.source reason)) := by
  have hfetch := hsrc.fetch hpos max maxOut reason
  simp only [Reader.read]
  split_ifs
  · exact fun hc => by cases hc
  · exact fun hc => by cases hc
  generalize r.fetch src max maxOut = answer at hfetch ⊢
  obtain ⟨answer,r'⟩ := answer
  cases answer with
  | error e => exact hfetch
  | ok data =>
    have hdecode : (r'.decodePiece data maxOut).1 ≠ .error (.raised (.source reason)) := by
      simp only [decodePiece]
      split
      · exact fun hc => by cases hc
      · split <;> exact fun hc => by cases hc
    simp only
    generalize r'.decodePiece data maxOut = answer at hdecode ⊢
    obtain ⟨answer,r''⟩ := answer
    cases answer with
    | error e => exact hdecode
    | ok raw =>
      simp only
      by_cases hlong : r''.entry.size < r''.produced + raw.length
      · rw [account_long hlong]
        exact fun hc => by cases hc
      by_cases hend : r''.left = 0 ∧ r''.isPaused = false
      · rw [account_last hlong hend]
        have hfinish := finishEntry_not_source (r''.counted raw) reason
        generalize (r''.counted raw).finishEntry = answer at hfinish
        obtain ⟨answer,s⟩ := answer
        cases answer with
        | error e => exact fun hc => hfinish (congrArg Except.error (Except.error.inj hc))
        | ok u => exact fun hc => by cases hc
      · rw [account_more hlong hend]
        exact fun hc => by cases hc

theorem reading_pos_le {fed gave : List UInt8} (h : Reading src entry r fed out gave)
    {whole : List UInt8} (hwhole : entry.content src.archive = some whole) (hleft : 0 < r.left) :
    r.pos ≤ src.archive.length := by
  have hlen := (content_eq_some hwhole).1
  rw [Entry.stored,List.length_take,List.length_drop] at hlen
  have hsum := h.left
  rw [h.pos]
  omega

theorem Status.reads_ok (h : Status src entry r out) (hsrc : Answering src) {whole : List UInt8}
    (hwhole : entry.content src.archive = some whole) (limits : List (Nat × Nat)) :
    ∀ answer ∈ (r.reads src limits).1,∃ data,answer = .ok data := by
  induction limits generalizing r out with
  | nil => exact fun answer ha => (List.not_mem_nil ha).elim
  | cons limit limits ih =>
    rw [reads_cons]
    rcases h.read limit.1 limit.2 with ⟨hnot,hs⟩ | ⟨-,-,hc⟩
    · refine List.forall_mem_cons.mpr ⟨?_,ih hs⟩
      cases h with
      | reading fed hr =>
        have hsource := hsrc.read (reading_pos_le hr hwhole) limit.1 limit.2
        have hread := read_spec hr limit.1 limit.2
        generalize r.read src limit.1 limit.2 = answer at hread hnot hsource
        cases hread with
        | passed reason s => exact (hsource reason rfl).elim
        | refused reason r' ho hc => exact (hnot ⟨reason,rfl⟩).elim
        | piece data raw r' hr' _ => exact ⟨raw,rfl⟩
        | last raw r' ho he hc => exact ⟨raw,rfl⟩
      | ended ho he hc =>
        rw [read_ended ho he]
        exact ⟨[],rfl⟩
    · rw [hwhole] at hc
      cases hc

theorem Status.alike_iff (h : Status src entry r out) (hsrc : Answering src) {whole : List UInt8}
    (hwhole : entry.content src.archive = some whole) :
    Alike src r (r.withEntry e) ↔ r.eof = true ∨ e.size = r.entry.size ∧ e.crc32 = r.entry.crc32 := by
  have hok := h.reads_ok hsrc hwhole
  constructor
  · intro halike
    by_cases he : r.eof = true
    · exact .inl he
    · have hlimits : ∀ limit ∈ List.replicate (r.weight + 1) (1,1),0 < limit.1 ∧ 0 < limit.2 := by
        intro limit hl
        rw [List.eq_of_mem_replicate hl]
        decide
      have hlong : r.weight < (List.replicate (r.weight + 1) (1,1)).length := by
        rw [List.length_replicate]
        exact r.weight.lt_succ_self
      have hend := reads_end h hlimits (hok _) hlong
      exact .inr (reads_both _ ((Bool.not_eq_true _).mp he) (hok _) (halike _).1 hend)
  · rintro (he | ⟨hsize,hcrc⟩) limits
    · rw [reads_idle limits (.inr he)]
      exact ⟨rfl,rfl⟩
    · rw [reads_withEntry limits hsize hcrc (.inr fun answer ha hown => ?_)]
      · exact ⟨rfl,rfl⟩
      · obtain ⟨data,rfl⟩ := hok limits answer ha
        exact Own.not_ok hown

def Harmless (r : Reader σ) (name : String) : Prop :=
  r.opened = false ∨ r.eof = true ∨ ∀ e, r.entries.find? (·.name == name) = some e →
    e.name = r.entry.name ∧ e.size = r.entry.size ∧ e.crc32 = r.entry.crc32

@[grind =] def Call.spared (src : Source σ) (r : Reader σ) :
    Call → Result (Option (List UInt8)) × Reader σ
  | .read max maxOut => Call.run src r (.read max maxOut)
  | .openEntry name =>
      match r.openEntry src name with
      | (.ok _,r) => (.ok none,r)
      | (.error e,_) => (.error e,r.spared src name)

def trace (run : Reader σ → Call → Result (Option (List UInt8)) × Reader σ) (r : Reader σ) :
    List Call → List (Result (Option (List UInt8)) × Bool)
  | [] => []
  | call :: rest => ((run r call).1,(run r call).2.isEof) :: (run r call).2.trace run rest

def HarmlessRun (src : Source σ) (r : Reader σ) : List Call → Prop
  | [] => True
  | call :: rest =>
      (∀ name, call = .openEntry name → r.Fails src name → r.Harmless name) ∧
        HarmlessRun src (call.run src r).2 rest

structure Beside (r s : Reader σ) : Prop where
  state : r = s.withEntry r.entry
  record : s.opened = false ∨ s.eof = true ∨
    r.entry.name = s.entry.name ∧ r.entry.size = s.entry.size ∧ r.entry.crc32 = s.entry.crc32

theorem Beside.rfl : Beside r r := ⟨Eq.refl r,.inr (.inr ⟨Eq.refl _,Eq.refl _,Eq.refl _⟩)⟩

theorem openEntry_found {s : Reader σ} (hfind : s.entries.find? (·.name == name) = some e) :
    (s.withEntry entry).openEntry src name = s.openEntry src name := by
  have hfind' : (s.withEntry entry).entries.find? (·.name == name) = some e := hfind
  simp only [openEntry,hfind,hfind']
  rfl

theorem Beside.read (src : Source σ) {s : Reader σ} (h : Beside r s) (max maxOut : Nat) :
    (r.read src max maxOut).1 = (s.read src max maxOut).1 ∧
      Beside (r.read src max maxOut).2 (s.read src max maxOut).2 := by
  obtain ⟨hstate,hrecord⟩ := h
  generalize r.entry = e at hstate hrecord
  subst hstate
  by_cases ho : s.opened = false
  · rw [read_closed ho,read_closed (r := s.withEntry e) ho]
    exact ⟨Eq.refl _,Eq.refl _,.inl ho⟩
  by_cases he : s.eof = true
  · have ho := (Bool.not_eq_false _).mp ho
    rw [read_ended ho he,read_ended (r := s.withEntry e) ho he]
    exact ⟨Eq.refl _,Eq.refl _,.inr (.inl he)⟩
  · obtain ⟨hname,hsize,hcrc⟩ := (hrecord.resolve_left ho).resolve_left he
    rw [read_withEntry hsize hcrc (.inl hname)]
    refine ⟨Eq.refl _,Eq.refl _,.inr (.inr ?_)⟩
    rw [read_entry src s]
    exact ⟨hname,hsize,hcrc⟩

theorem Beside.step {s : Reader σ} (h : Beside r s) (call : Call)
    (hfail : ∀ name,call = .openEntry name → r.Fails src name → r.Harmless name) :
    (call.run src r).1 = (call.spared src s).1 ∧
      Beside (call.run src r).2 (call.spared src s).2 := by
  cases call with
  | read max maxOut =>
    obtain ⟨hanswer,hbeside⟩ := h.read src max maxOut
    exact ⟨congrArg (Except.map some) hanswer,hbeside⟩
  | openEntry name =>
    have hfail := hfail name (Eq.refl _)
    obtain ⟨hstate,hrecord⟩ := h
    rw [Harmless] at hfail
    generalize r.entry = e at hstate hrecord hfail
    subst hstate
    cases hfind : s.entries.find? (·.name == name) with
    | none =>
      have hs : s.openEntry src name = (fail ("no entry " ++ name ++ " in the archive"),s) := by
        rw [openEntry,hfind]
      have hr : (s.withEntry e).openEntry src name =
          (fail ("no entry " ++ name ++ " in the archive"),s.withEntry e) := by
        rw [openEntry,show (s.withEntry e).entries.find? (·.name == name) = none from hfind]
      simp only [Call.run,Call.spared,spared,hs,hr]
      exact ⟨Eq.refl _,Eq.refl _,hrecord⟩
    | some found =>
      rw [Fails,openEntry_found hfind] at hfail
      simp only [Call.run,Call.spared,openEntry_found hfind]
      have hkept := openEntry_failed src hfind
      rw [Fails] at hkept
      generalize hopen : s.openEntry src name = answer at hfail hkept
      obtain ⟨answer,s'⟩ := answer
      cases answer with
      | ok u => exact ⟨Eq.refl _,Beside.rfl⟩
      | error err =>
        have herr : (Except.error err : Result Unit) ≠ .ok () := fun hc => by cases hc
        rw [hkept herr]
        refine ⟨Eq.refl _,Eq.refl _,?_⟩
        rcases hfail herr with ho | he | hsame
        · exact .inl ho
        · exact .inr (.inl he)
        · obtain ⟨hname,hsize,hcrc⟩ := hsame found hfind
          refine hrecord.imp_right (Or.imp_right fun hsame' => ?_)
          obtain ⟨hname',hsize',hcrc'⟩ := hsame'
          exact ⟨hname.trans hname',hsize.trans hsize',hcrc.trans hcrc'⟩

theorem Beside.trace {s : Reader σ} (h : Beside r s) (rest : List Call)
    (hrun : HarmlessRun src r rest) :
    r.trace (fun r call => call.run src r) rest = s.trace (fun s call => call.spared src s) rest := by
  induction rest generalizing r s with
  | nil => exact Eq.refl _
  | cons call rest ih =>
    obtain ⟨hanswer,hbeside⟩ := h.step call hrun.1
    have heof : (call.run src r).2.isEof = (call.spared src s).2.isEof := by
      rw [hbeside.state]
      exact Eq.refl _
    rw [Reader.trace,Reader.trace,hanswer,heof,ih hbeside hrun.2]

theorem failed_open_exact (src : Source σ) :
    (∀ (r : Reader σ) (rest : List Call), HarmlessRun src r rest →
        r.trace (fun r call => call.run src r) rest =
          r.trace (fun r call => call.spared src r) rest) ∧
      ∀ (r₀ r : Reader σ) (name₀ : String), r₀.openEntry src name₀ = (.ok (),r) →
        Answering src → ∀ whole, r.entry.content src.archive = some whole →
          ∀ (limits : List (Nat × Nat)) (r' : Reader σ) (name : String),
            (r.reads src limits).2 = r' → r'.Fails src name →
              (Alike src (r'.spared src name) (r'.openEntry src name).2 ↔
                r'.eof = true ∨ ∀ e, r'.entries.find? (·.name == name) = some e →
                  e.size = r'.entry.size ∧ e.crc32 = r'.entry.crc32) := by
  refine ⟨fun r rest hrun => Beside.rfl.trace rest hrun,
    fun r₀ r name₀ hopen hsrc whole hwhole limits r' name hr' hfail => ?_⟩
  have hreading : Status src r.entry r [] := .reading [] (openEntry_reading hopen)
  have hstatus : Status src r.entry r' (returned (r.reads src limits).1) := by
    rcases hreading.reads limits with ⟨-,hs⟩ | ⟨-,-,hc⟩
    · rw [← hr']
      exact hs
    · rw [hwhole] at hc
      cases hc
  cases hfind : r'.entries.find? (·.name == name) with
  | none =>
    have hsame : r'.spared src name = r' := by
      rw [spared,openEntry_missing hfind]
    rw [hsame,openEntry_missing hfind]
    exact ⟨fun _ => .inr fun e he => (by cases he),fun _ limits => ⟨Eq.refl _,Eq.refl _⟩⟩
  | some e =>
    rw [openEntry_failed src hfind hfail]
    have hiff := (hstatus.with_source (r'.openEntry src name).2.source).alike_iff (e := e) hsrc hwhole
    refine hiff.trans (or_congr_right ⟨fun hsame e' he' => ?_,fun hall => hall e (Eq.refl _)⟩)
    obtain rfl := Option.some.inj he'
    exact hsame

section samples

def pairReader : Reader Unit where
  source := ()
  entries := [{ name := "a", compressedSize := 2, size := 2, crc32 := 0xD8932AAC#32 },
    { name := "b", compressedSize := 2, size := 1, isEncrypted := true }]
  comment := ""

def pairOpen : Reader Unit := (pairReader.openEntry sampleSource "a").2

theorem failed_open_exact_sample :
    pairOpen.trace (fun r call => call.run sampleSource r) [.openEntry "c",.read 2 2] =
        pairOpen.trace (fun r call => call.spared sampleSource r) [.openEntry "c",.read 2 2] ∧
      ¬Alike sampleSource (pairOpen.spared sampleSource "b")
        (pairOpen.openEntry sampleSource "b").2 := by
  have hopen : pairReader.openEntry sampleSource "a" = (.ok (),pairOpen) := rfl
  have hsrc : Answering sampleSource := fun s pos len hpos =>
    ⟨_,congrArg Prod.fst (if_neg (not_lt.mpr hpos))⟩
  have hcontent : pairOpen.entry.content sampleSource.archive = some [0x68,0x69] := by
    decide +kernel
  have hfail : pairOpen.Fails sampleSource "b" := fun hc => by cases hc
  refine ⟨(failed_open_exact sampleSource).1 _ _ ⟨fun name hname _ => ?_,
    fun name hname => (by cases hname),trivial⟩,fun halike => ?_⟩
  · cases hname
    exact .inr (.inr fun e he => by cases he)
  · rcases ((failed_open_exact sampleSource).2 pairReader pairOpen "a" hopen hsrc _ hcontent [] pairOpen
      "b" rfl hfail).mp halike with he | hall
    · exact absurd he (by decide)
    · exact absurd (hall _ rfl).1 (by decide)

theorem failed_open_observed : ¬∀ (σ : Type) (src : Source σ) (r : Reader σ) (name : String),
    r.Fails src name → Alike src (r.spared src name) (r.openEntry src name).2 := by
  intro h
  have hfail : pairOpen.Fails sampleSource "b" := fun hc => by cases hc
  have hread := (h Unit sampleSource pairOpen "b" hfail [(2,2)]).1
  exact absurd hread (by decide +kernel)

end samples

end OpenSteamgate.Zip.Reader
